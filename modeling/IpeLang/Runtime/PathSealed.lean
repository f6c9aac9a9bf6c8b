import IpeLang.Runtime.PathSeal
import Mathlib.Data.Char

/-!
# Which sealed paths keep their promise

A sealed path keeps what it promises but for an element of dots and spaces right behind a drive
(`sealed_iff`): the elements of the raw text are checked with the drive before them, and the cleaned
text is checked for dots only. The relative path of segments always has them as its elements
(`from_segments_eq_ok`).
-/

namespace IpeLang.Runtime.PathCore

open Lib (Str)
open Lib.Lexical (Move Location walk resolve First)

variable {regime : Regime}

/-! ### Elements of a volume and of the rest -/

theorem elementsOf_normalise (s : Str) :
    elementsOf regime (s.map (normalise regime)) = elementsOf regime s := by
  induction s with
  | nil => rfl
  | cons c s ih =>
    unfold elementsOf at ih ⊢
    rw [List.map_cons, List.splitOnP_cons_eq_if_modifyHead, List.splitOnP_cons_eq_if_modifyHead, ih,
      is_sep_normalise]
    split_ifs with hc
    · rfl
    · rw [normalise, if_neg hc]

/-- The elements of a text, and those of what follows a separator after it. -/
theorem elementsOf_append {s rest : Str} (h : atEnd regime rest = true) :
    elementsOf regime (s ++ rest) = elementsOf regime s ++ (elementsOf regime rest).tail := by
  cases rest with
  | nil =>
    rw [List.append_nil]
    exact (List.append_nil _).symm
  | cons c rest =>
    have hc : is_sep c regime = true := by simpa [atEnd] using h
    rw [elementsOf_sep hc]
    exact List.splitOnP_append_cons s rest hc

theorem head_elementsOf {rest : Str} (h : atEnd regime rest = true) :
    (elementsOf regime rest).head? = some [] := by
  cases rest with
  | nil => rfl
  | cons c rest =>
    have hc : is_sep c regime = true := by simpa [atEnd] using h
    rw [elementsOf_sep hc]
    rfl

/-- A volume is a drive, or it ends where a component ends. -/
theorem VolumeAt.drive_or_end {v : Volume} {raw rest : Str} (h : VolumeAt v raw rest) :
    (∃ c, v = .Drive c ∧ raw = [c, ':'] ∧ isDriveChar c .Windows = true) ∨
      atEnd .Windows rest = true := by
  have htail : ∀ {name : Option Str} {tail : Str}, TailAt name tail rest →
      atEnd .Windows rest = true := by
    intro name tail ht
    cases ht with
    | none => rfl
    | some _ _ hrest => exact hrest
  cases h with
  | @drive c rest hc => exact Or.inl ⟨c, rfl, rfl, hc⟩
  | unc _ _ _ _ _ ht => exact Or.inr (htail ht)
  | verbatimUnc _ _ _ _ _ _ _ ht => exact Or.inr (htail ht)
  | namespaced _ _ ht _ => exact Or.inr (htail ht)

theorem noSep_drive {c : Char} (hc : isDriveChar c .Windows = true) : NoSep [c, ':'] := by
  have hboth := (Bool.and_eq_true _ _).mp hc
  have hsep : is_sep c .Windows = false := by simpa using hboth.1
  exact List.forall_mem_cons.2 ⟨hsep, noSep_char (is_sep_colon _)⟩

/-- The first element behind a drive has the drive before it in the whole text. -/
theorem elementsOf_drive {c : Char} (hc : isDriveChar c .Windows = true) {rest e : Str} {es : List Str}
    (h : elementsOf .Windows rest = e :: es) :
    elementsOf .Windows (c :: ':' :: rest) = (c :: ':' :: e) :: es :=
  Lib.Lexical.splitOnP_append_of_not (noSep_drive hc) h

theorem exists_elementsOf (regime : Regime) (s : Str) : ∃ e es, elementsOf regime s = e :: es :=
  List.exists_cons_of_ne_nil (List.splitOnP_ne_nil _ s)

/-- The elements of a text on a drive are undisguised if those after the first one are: the first one
has a colon. -/
theorem undisguised_drive {c : Char} (hc : isDriveChar c .Windows = true) {rest : Str}
    (h : Undisguised (elementsOf .Windows rest).tail) :
    Undisguised (elementsOf .Windows (c :: ':' :: rest)) := by
  obtain ⟨e, es, hes⟩ := exists_elementsOf .Windows rest
  rw [hes] at h
  rw [elementsOf_drive hc hes]
  refine List.forall_mem_cons.2 ⟨?_, h⟩
  rw [class_colon (by simp)]
  decide

/-! ### Paths that keep their volume -/

/-- A name behind a drive that is the first element of the text, if it is no element of the text that has
been checked. -/
theorem first_of_unchecked {rest e : Str} {es : List Str} (hes : elementsOf regime rest = e :: es)
    {rooted : Bool} (hrooted : rooted = rest.head?.any fun c => is_sep c regime)
    (hname : e ∈ (resolve rooted ((elementsOf regime rest).map moveOf)).names) (hmem : e ∉ es) :
    rooted = false ∧ First ((elementsOf regime rest).map moveOf) e := by
  obtain ⟨e', he', hmove⟩ := List.mem_map.1 (Lib.Lexical.mem_names_resolve hname)
  have heq := moveOf_eq_down hmove
  subst heq
  have hroot : rooted = false := by
    by_contra hroot
    rw [Bool.not_eq_false] at hroot
    have hend : atEnd regime rest = true := by
      cases rest with
      | nil => rfl
      | cons c rest =>
        rw [hroot] at hrooted
        simpa [atEnd] using hrooted.symm
    have hhead := head_elementsOf hend
    rw [hes] at hhead
    cases hhead
    cases hmove
  subst hroot
  refine ⟨rfl, ?_⟩
  rw [hes, List.map_cons, hmove] at hname ⊢
  rw [← Lib.Lexical.head_names_iff]
  have hdown : Move.down e ∉ es.map moveOf := by
    intro hdown
    obtain ⟨a, ha, hmove'⟩ := List.mem_map.1 hdown
    rw [← moveOf_eq_down hmove'] at ha
    exact hmem ha
  exact (Lib.Lexical.head_or_not_mem hdown).resolve_right (not_not.2 hname)

/-- The names of a path are undisguised, if those are that the raw text has been checked for. -/
theorem undisguised_names {text : Str} (hraw : Undisguised (elementsOf .Windows text))
    (hhead : ¬ DisguisedHead text .Windows) : Undisguised (form text .Windows).place.names := by
  intro e he hclass
  have hmem : e ∈ elementsOf .Windows (afterVolume text .Windows) := by
    obtain ⟨e', he', hmove⟩ := List.mem_map.1 (Lib.Lexical.mem_names_resolve he)
    rw [moveOf_eq_down hmove]
    exact he'
  have hname : IsName .Windows e := goodPlace_form text e he
  have hne := hname.ne_nil
  by_cases hnone : Volume.parse text .Windows = .None
  · rw [(volumeText_none hnone).2] at hmem
    exact hraw e hmem hclass
  obtain ⟨raw, rest, htext, hat⟩ := volumeAt_parse hnone
  have hafter := hat.texts.2
  rw [← htext] at hafter
  rw [hafter] at hmem
  rcases hat.drive_or_end with ⟨c, hdrive, rfl, hc⟩ | hend
  · obtain ⟨e', es, hes⟩ := exists_elementsOf .Windows rest
    rw [htext] at hraw
    have hall : Undisguised ((c :: ':' :: e') :: es) := by
      rw [← elementsOf_drive hc hes]
      exact hraw
    have hnot : e ∉ es := fun hes' => hall e (List.mem_cons_of_mem _ hes') hclass
    rw [hes] at hmem
    have heq : e = e' := (List.mem_cons.1 hmem).resolve_right hnot
    subst heq
    have hplace : (form text .Windows).place =
        resolve (is_rooted text .Windows) ((elementsOf .Windows rest).map moveOf) := by
      unfold form
      rw [hafter]
    have hrooted : is_rooted text .Windows = rest.head?.any fun c => is_sep c .Windows := by
      unfold is_rooted
      rw [hafter]
    rw [hplace] at he
    obtain ⟨hroot, hfirst⟩ := first_of_unchecked hes hrooted he hnot
    rw [← hafter] at hfirst
    exact hhead ⟨rfl, hroot, e, hfirst, Or.inl ⟨c, hdrive, hclass⟩⟩
  · have htail : e ∈ (elementsOf .Windows rest).tail := by
      have hfirst := head_elementsOf hend
      cases hes : elementsOf .Windows rest with
      | nil =>
        rw [hes] at hmem
        cases hmem
      | cons e' es =>
        rw [hes] at hmem hfirst
        cases hfirst
        exact (List.mem_cons.1 hmem).resolve_left hne
    refine hraw e ?_ hclass
    rw [htext, elementsOf_append hend]
    exact List.mem_append_right _ htail

theorem undisguised_rest {f : Form} (hgood : GoodForm .Windows f) (hnames : Undisguised f.place.names) :
    Undisguised (elementsOf .Windows (f.rest .Windows)) := by
  intro e he
  rcases mem_elementsOf_rest hgood he with rfl | he
  · exact undisguised_nil
  rcases List.mem_append.1 he with he | he
  · rw [List.eq_of_mem_replicate he]
    exact undisguised_parent
  · exact hnames e he

/-- The elements of the cleaned text are undisguised too. -/
theorem undisguised_text {text : Str} (hraw : Undisguised (elementsOf .Windows text))
    (hnames : Undisguised (form text .Windows).place.names) :
    Undisguised (elementsOf .Windows ((form text .Windows).text .Windows)) := by
  have hgood : GoodForm .Windows (form text .Windows) := goodForm_form text
  have hrest := undisguised_rest hgood hnames
  unfold Form.text
  by_cases hnone : Volume.parse text .Windows = .None
  · have hvolume : (form text .Windows).volume = [] := by
      unfold form
      rw [(volumeText_none hnone).1]
      rfl
    rw [hvolume]
    exact hrest
  obtain ⟨raw, rest, htext, hat⟩ := volumeAt_parse hnone
  obtain ⟨hvol, hafter⟩ := hat.texts
  rw [← htext] at hvol hafter
  have hvolume : (form text .Windows).volume = raw.map (normalise .Windows) := by
    unfold form
    rw [hvol]
  rw [hvolume]
  rcases hat.drive_or_end with ⟨c, -, rfl, hc⟩ | hend
  · have hself : [c, ':'].map (normalise .Windows) = [c, ':'] := normalise_eq_self (noSep_drive hc)
    rw [hself]
    exact undisguised_drive hc fun e he => hrest e (List.mem_of_mem_tail he)
  · have hend' := (form_rest_end hafter).2 hend
    rw [elementsOf_append hend', elementsOf_normalise]
    intro e he
    rcases List.mem_append.1 he with he | he
    · refine hraw e ?_
      rw [htext, elementsOf_append hend]
      exact List.mem_append_left _ he
    · exact hrest e (List.mem_of_mem_tail he)

/-! ### Paths that get a drive -/

/-- What is behind the drive that a path gets. -/
def driveRest (name : Str) (es : List Str) : Str :=
  if es = [] then name else name ++ '\\' :: joined .Windows es

theorem elementsOf_driveRest {name : Str} {es : List Str} (hname : NoSep name)
    (hes : ∀ e ∈ es, NoSep e) : elementsOf .Windows (driveRest name es) = name :: es := by
  unfold driveRest
  split_ifs with hnil
  · rw [hnil]
    exact List.splitOnP_eq_singleton hname
  · rw [elementsOf_element hname (by decide), elementsOf_joined hes, if_neg hnil]

/-- The name and the rest of a path that gets a drive. -/
structure DriveHead (text : Str) (c : Char) (name : Str) (es : List Str) : Prop where
  char : isDriveChar c .Windows = true
  ups : (form text .Windows).place.ups = 0
  names : (form text .Windows).place.names = (c :: ':' :: name) :: es
  cleaned : clean_with text .Windows = c :: ':' :: driveRest name es
  noSep : ∀ e ∈ name :: es, NoSep e

theorem exists_driveHead {text : Str} (h : HeadLooksLikeDrive text .Windows) :
    ∃ c name es, DriveHead text c name es := by
  obtain ⟨-, hvolume, hrooted, c, name, hc, hfirst⟩ := h
  obtain ⟨hups, hhead⟩ := hfirst.stays
  have hplace : (form text .Windows).place =
      resolve false ((elementsOf .Windows (afterVolume text .Windows)).map moveOf) := by
    unfold form
    rw [hrooted]
  rw [← hplace] at hups hhead
  have hgood : GoodForm .Windows (form text .Windows) := goodForm_form text
  obtain ⟨es, hes⟩ : ∃ es, (form text .Windows).place.names = (c :: ':' :: name) :: es := by
    cases hn : (form text .Windows).place.names with
    | nil =>
      rw [hn] at hhead
      cases hhead
    | cons e es =>
      rw [hn] at hhead
      cases hhead
      exact ⟨es, rfl⟩
  have hvol : (form text .Windows).volume = [] := by
    unfold form
    rw [(volumeText_none hvolume).1]
    rfl
  have helements : placeElements (form text .Windows).place = (c :: ':' :: name) :: es := by
    unfold placeElements
    rw [hups, hes]
    rfl
  refine ⟨c, name, es, hc, hups, hes, ?_, ?_⟩
  · have htext : (form text .Windows).text .Windows = c :: ':' :: driveRest name es := by
      unfold Form.text Form.rest
      rw [hvol, show (form text .Windows).rooted = false from hrooted, helements]
      unfold driveRest joined
      cases es with
      | nil => simp
      | cons e es =>
        rw [List.intercalate_cons_cons]
        simp [Regime.separator]
    rw [clean_eq, htext, if_neg (List.cons_ne_nil _ _)]
  · have hall : ∀ e ∈ (c :: ':' :: name) :: es, NoSep e := fun e he => by
      rw [← hes] at he
      exact (hgood.place e he).no_sep
    obtain ⟨hfirst', hrest⟩ := List.forall_mem_cons.1 hall
    refine List.forall_mem_cons.2 ⟨fun d hd => hfirst' d ?_, hrest⟩
    exact List.mem_cons_of_mem _ (List.mem_cons_of_mem _ hd)

section DriveHead

variable {text name : Str} {c : Char} {es : List Str}

theorem DriveHead.texts (h : DriveHead text c name es) :
    Volume.parse (clean_with text .Windows) .Windows = .Drive c ∧
      volumeText (clean_with text .Windows) .Windows = [c, ':'] ∧
      afterVolume (clean_with text .Windows) .Windows = driveRest name es ∧
      elementsOf .Windows (driveRest name es) = name :: es := by
  have hat : VolumeAt (.Drive c) [c, ':'] (driveRest name es) := .drive h.char
  obtain ⟨hname, hes⟩ := List.forall_mem_cons.1 h.noSep
  rw [h.cleaned]
  exact ⟨parse_of_volumeAt hat, hat.texts.1, hat.texts.2, elementsOf_driveRest hname hes⟩

/-- A path that gets a drive, with a plain name or nothing behind it, is sealed. -/
theorem DriveHead.isSealed (h : DriveHead text c name es) (hnul : has_nul text = false)
    (hraw : Undisguised (elementsOf .Windows text)) (hnone : Volume.parse text .Windows = .None)
    (hescape : escapes_root (clean_with text .Windows) .Windows = false) (hdot : name ≠ ['.'])
    (hclass : ElementClass.of name ≠ .DisguisedParent) :
    Sealed (clean_with text .Windows) .Windows := by
  obtain ⟨hparse, hvolume, hafter, helements⟩ := h.texts
  obtain ⟨hname, hnoSep⟩ := List.forall_mem_cons.1 h.noSep
  have hgood : GoodForm .Windows (form text .Windows) := goodForm_form text
  have hes : ∀ e ∈ es, IsName .Windows e := fun e he =>
    hgood.place e (by rw [h.names]; exact List.mem_cons_of_mem _ he)
  have hmem : ∀ e ∈ es, e ∈ elementsOf .Windows text := by
    intro e he
    have hin : e ∈ (form text .Windows).place.names := by
      rw [h.names]
      exact List.mem_cons_of_mem _ he
    obtain ⟨e', he', hmove⟩ := List.mem_map.1 (Lib.Lexical.mem_names_resolve hin)
    rw [(volumeText_none hnone).2] at he'
    rw [moveOf_eq_down hmove]
    exact he'
  have hparent : name ≠ ['.', '.'] := by
    intro hname'
    have hclimb : escapes_root (clean_with text .Windows) .Windows = true := by
      unfold escapes_root
      rw [hafter, helements, hname']
      rfl
    rw [hclimb] at hescape
    cases hescape
  -- The form that the cleaned path has on the drive.
  obtain ⟨f, hf⟩ : ∃ f : Form, f = ⟨[c, ':'], decide (name = [] ∧ es ≠ []),
    ⟨0, if name = [] then es else name :: es⟩⟩ := ⟨_, rfl⟩
  have hfgood : GoodForm .Windows f := by
    subst hf
    refine ⟨fun e he => ?_, fun _ => rfl⟩
    change e ∈ (if name = [] then es else name :: es) at he
    split_ifs at he with hnil
    · exact hes e he
    · rcases List.mem_cons.1 he with rfl | he
      · refine ⟨?_, hname⟩
        unfold moveOf
        rw [if_neg, if_neg hparent]
        rintro (hnil' | hdot')
        · exact hnil hnil'
        · exact hdot hdot'
      · exact hes e he
  have hrest : f.rest .Windows = driveRest name es := by
    subst hf
    unfold Form.rest driveRest placeElements
    by_cases hnil : name = []
    · by_cases hnil' : es = []
      · simp [hnil, hnil', joined]
      · simp [hnil, hnil', Regime.separator]
    · by_cases hnil' : es = []
      · simp [hnil, hnil', joined]
      · obtain ⟨e, es', rfl⟩ := List.exists_cons_of_ne_nil hnil'
        simp [hnil, joined, Regime.separator, List.intercalate_cons_cons]
  have hfvolume : f.volume = [c, ':'] := by rw [hf]
  have htext : clean_with text .Windows = f.text .Windows := by
    unfold Form.text
    rw [hfvolume, hrest, h.cleaned]
    rfl
  have hform : form (clean_with text .Windows) .Windows = f := by
    refine form_eq hfgood ?_ (hafter.trans hrest.symm)
    rw [hvolume, hfvolume]
    exact normalise_eq_self (noSep_drive h.char)
  have hnames : Undisguised f.place.names := by
    intro e he
    subst hf
    change e ∈ (if name = [] then es else name :: es) at he
    split_ifs at he
    · exact hraw e (hmem e he)
    · rcases List.mem_cons.1 he with rfl | he
      · exact hclass
      · exact hraw e (hmem e he)
  refine sealed_of_form hfgood htext hform (hafter.trans hrest.symm) ?_ (has_nul_clean hnul) hescape
    (fun _ => hnames) fun _ => ?_
  · rw [h.cleaned]
    exact List.cons_ne_nil _ _
  · rw [h.cleaned]
    refine undisguised_drive h.char fun e he => ?_
    rw [helements] at he
    exact hraw e (hmem e he)

end DriveHead

/-! ### Sealed paths -/

/-- A sealed path keeps what it promises, unless it hides dots and spaces behind a drive. -/
theorem sealed_of_ok {text s : Str} (h : seal_text text regime = .ok s)
    (hhead : ¬ DisguisedHead text regime) : Sealed s regime := by
  obtain ⟨hnul, hraw, rfl, hescape⟩ := seal_text_eq_ok h
  by_cases hdrive : HeadLooksLikeDrive text regime
  · obtain ⟨rfl, hnone, hrooted, -⟩ := id hdrive
    obtain ⟨c, name, es, hd⟩ := exists_driveHead hdrive
    have hfirst : First ((elementsOf .Windows (afterVolume text .Windows)).map moveOf)
        (c :: ':' :: name) := by
      rw [← Lib.Lexical.head_names_iff]
      have hups := hd.ups
      have hnames := hd.names
      unfold form at hups hnames
      rw [hrooted] at hups hnames
      exact ⟨hups, by rw [hnames]; rfl⟩
    refine hd.isSealed hnul (hraw rfl) hnone hescape ?_ ?_
    · intro hdot
      exact hhead ⟨rfl, hrooted, _, hfirst, Or.inr ⟨hnone, c, name, hd.char, rfl, Or.inl hdot⟩⟩
    · intro hclass
      exact hhead ⟨rfl, hrooted, _, hfirst, Or.inr ⟨hnone, c, name, hd.char, rfl, Or.inr hclass⟩⟩
  · obtain ⟨-, hvolume, hrest⟩ := parse_text hdrive
    have hform := form_text hdrive
    have hclean : clean_with text regime = _ := clean_eq text
    split_ifs at hclean with hnil
    · rw [hclean]
      exact sealed_dot
    · have hnulclean : has_nul (clean_with text regime) = false := has_nul_clean hnul
      rw [hclean] at hescape hnulclean ⊢
      have hnames : regime = .Windows → Undisguised (form text regime).place.names := by
        rintro rfl
        exact undisguised_names (hraw rfl) hhead
      refine sealed_of_form (goodForm_form text) rfl hform hrest hnil hnulclean hescape hnames ?_
      rintro rfl
      exact undisguised_text (hraw rfl) (hnames rfl)

/-- What is hidden behind a drive is in the sealed path. -/
theorem not_sealed_of_disguised {text s : Str} (h : seal_text text regime = .ok s)
    (hhead : DisguisedHead text regime) : ¬ Sealed s regime := by
  obtain ⟨-, -, rfl, -⟩ := seal_text_eq_ok h
  obtain ⟨rfl, hrooted, e, hfirst, hcase⟩ := hhead
  intro hsealed
  rcases hcase with ⟨c, hdrive, hclass⟩ | ⟨hnone, c, name, hc, rfl, hname⟩
  · have hnot : ¬ HeadLooksLikeDrive text .Windows := by
      rintro ⟨-, hnone, -⟩
      rw [hnone] at hdrive
      cases hdrive
    obtain ⟨hparse, -, hrest⟩ := parse_text hnot
    obtain ⟨hups, hhead⟩ := hfirst.stays
    have hgood : GoodForm .Windows (form text .Windows) := goodForm_form text
    have hplace : (form text .Windows).place =
        resolve false ((elementsOf .Windows (afterVolume text .Windows)).map moveOf) := by
      unfold form
      rw [hrooted]
    have hmem : e ∈ placeElements (form text .Windows).place := by
      rw [hplace]
      exact List.mem_append_right _ (List.mem_of_mem_head? hhead)
    have hne : (form text .Windows).text .Windows ≠ [] := by
      intro hnil
      rw [hnil] at hparse
      rw [← hparse] at hdrive
      cases hdrive
    refine hsealed.no_disguise rfl e ?_ hclass
    rw [clean_eq, if_neg hne, hrest, elementsOf_rest hgood, if_neg (List.ne_nil_of_mem hmem)]
    exact List.mem_append_right _ hmem
  · have hlooks : HeadLooksLikeDrive text .Windows := ⟨rfl, hnone, hrooted, c, name, hc, hfirst⟩
    obtain ⟨c', name', es, hd⟩ := exists_driveHead hlooks
    have heq : c = c' ∧ name = name' := by
      obtain ⟨-, hhead⟩ := hfirst.stays
      have hnames := hd.names
      unfold form at hnames
      rw [hrooted] at hnames
      rw [hnames] at hhead
      cases hhead
      exact ⟨rfl, rfl⟩
    obtain ⟨rfl, rfl⟩ := heq
    obtain ⟨hparse, -, hafter, helements⟩ := hd.texts
    rw [← hafter] at helements
    rcases hname with rfl | hclass
    · -- A single dot behind the new drive is cleaned away.
      obtain ⟨-, -, hagain, -⟩ := seal_text_eq_ok hsealed.resealed
      have hnot : ¬ HeadLooksLikeDrive (clean_with text .Windows) .Windows := by
        rintro ⟨-, hnone', -⟩
        rw [hnone'] at hparse
        cases hparse
      obtain ⟨-, -, hrest⟩ := parse_text hnot
      have hgood : GoodForm .Windows (form (clean_with text .Windows) .Windows) := goodForm_form _
      have hclean : clean_with (clean_with text .Windows) .Windows = _ := clean_eq _
      split_ifs at hclean with hnil
      · rw [← hagain, hd.cleaned] at hclean
        cases hclean
      · rw [← hclean, ← hagain] at hrest
        have hmem : ['.'] ∈ elementsOf .Windows
            ((form (clean_with text .Windows) .Windows).rest .Windows) := by
          rw [← hrest, helements]
          exact List.mem_cons_self
        rcases mem_elementsOf_rest hgood hmem with hnil' | hplace
        · cases hnil'
        rcases List.mem_append.1 hplace with hup | hname
        · cases List.eq_of_mem_replicate hup
        · cases (hgood.place _ hname).move
    · refine hsealed.no_disguise rfl name ?_ hclass
      rw [helements]
      exact List.mem_cons_self

/-! ### Relative paths -/

/-- A segment that has been accepted. -/
structure IsSegment (regime : Regime) (seg : Str) : Prop where
  no_nul : has_nul seg = false
  no_sep : ∀ c ∈ seg, is_sep c regime = false
  parsed : ChildElement.parse seg regime = .ok .Name

theorem IsSegment.ne_nil {seg : Str} (h : IsSegment regime seg) : seg ≠ [] := by
  rintro rfl
  have hparsed := h.parsed
  cases regime <;> cases hparsed

/-- A segment is a name of an entry. -/
theorem IsSegment.readMove_eq {seg : Str} (h : IsSegment regime seg) : readMove regime seg = .down seg := by
  have hparsed := h.parsed
  cases regime with
  | Unix =>
    unfold ChildElement.parse at hparsed
    dsimp only at hparsed
    split_ifs at hparsed with h₁ h₂ h₃
    · cases hparsed
    · cases hparsed
    · show moveOf seg = .down seg
      unfold moveOf
      rw [if_neg (not_or.2 ⟨h₁, h₂⟩), if_neg h₃]
  | Windows =>
    unfold ChildElement.parse at hparsed
    dsimp only at hparsed
    unfold readMove
    dsimp only
    cases hclass : ElementClass.of seg with
    | Name => rfl
    | Colon | DosDevice | StrippedTail => rfl
    | _ =>
      rw [hclass] at hparsed
      cases hparsed

/-- A segment has no colon, under Windows. -/
theorem IsSegment.no_colon {seg : Str} (h : IsSegment .Windows seg) : ':' ∉ seg := by
  intro hcolon
  have hparsed := h.parsed
  unfold ChildElement.parse at hparsed
  dsimp only at hparsed
  rw [class_colon hcolon] at hparsed
  cases hparsed

/-- The segments are accepted, and written one after the other. -/
theorem pushSegments_eq_ok {segs done : List Str} {last_start last_start' : Option ℕ} {text : Str}
    (hdone : ∀ seg ∈ done, seg ≠ []) (hstart : last_start.isSome = !done.isEmpty)
    (hlast : ∀ n ∈ last_start, done.getLast? = some ((joined regime done).drop n)) (h : pushSegments regime segs (joined regime done) last_start = .ok (text, last_start')) :
    (∀ seg ∈ segs, IsSegment regime seg) ∧ text = joined regime (done ++ segs) ∧
      last_start'.isSome = !(done ++ segs).isEmpty ∧
      ∀ n ∈ last_start', (done ++ segs).getLast? = some (text.drop n) := by
  induction segs generalizing done last_start with
  | nil =>
    cases h
    rw [List.append_nil]
    exact ⟨fun seg hseg => (List.not_mem_nil hseg).elim, rfl, hstart, hlast⟩
  | cons seg segs ih =>
    unfold pushSegments at h
    by_cases hnul : has_nul seg = true
    · rw [if_pos hnul] at h
      cases h
    by_cases hsep : seg.any (fun c => is_sep c regime) = true
    · rw [if_neg hnul, if_pos hsep] at h
      cases h
    rw [if_neg hnul, if_neg hsep] at h
    split at h
    · next hparsed =>
      have hseg : IsSegment regime seg := by
        refine ⟨by simpa using hnul, fun c hc => ?_, hparsed⟩
        by_contra hc'
        exact hsep (List.any_eq_true.2 ⟨c, hc, by simpa using hc'⟩)
      have htext : (if last_start.isSome then joined regime done ++ [regime.separator]
          else joined regime done) ++ seg = joined regime (done ++ [seg]) := by
        rw [joined_concat, hstart]
        cases done with
        | nil => simp [joined]
        | cons a done => simp
      dsimp only at h
      rw [htext] at h
      have hdone' : ∀ s ∈ done ++ [seg], s ≠ [] := by
        intro s hs
        rcases List.mem_append.1 hs with hs | hs
        · exact hdone s hs
        · rw [List.mem_singleton.1 hs]
          exact hseg.ne_nil
      have hlast' : ∀ n ∈ some (List.length (if last_start.isSome then
          joined regime done ++ [regime.separator] else joined regime done)),
          (done ++ [seg]).getLast? = some ((joined regime (done ++ [seg])).drop n) := by
        rintro n ⟨⟩
        rw [← htext, List.drop_left, List.getLast?_concat]
      obtain ⟨hsegs, htext', hstart', hlast''⟩ := ih hdone' (by simp) hlast' h
      rw [List.append_assoc, List.singleton_append] at htext' hstart' hlast''
      exact ⟨List.forall_mem_cons.2 ⟨hseg, hsegs⟩, htext', hstart', hlast''⟩
    · cases h
    · cases h
    · cases h

/-- What the relative path of segments promises: it is its segments with separators between them and
knows the last of them, it has no volume and no root, and each part of it leads below the place it
starts at. -/
structure Relative (segs : List Str) (p : RelPath) : Prop where
  split : p.text.splitOnP (· == p.regime.separator) = segs
  elements : elementsOf p.regime p.text = segs
  last : segs.getLast? = some p.last
  ne_nil : segs ≠ []
  volume : Volume.parse p.text p.regime = .None
  relative : is_rooted p.text p.regime = false
  below : ∀ base pre, pre <+: segs →
    walk false ⟨0, base⟩ (pre.map (readMove p.regime)) = ⟨0, base ++ pre⟩

theorem from_segments_eq_ok {segs : List Str} {p : RelPath}
    (h : RelPath.from_segments segs regime = .ok p) : p.regime = regime ∧ Relative segs p := by
  unfold RelPath.from_segments at h
  split at h
  · cases h
  · cases h
  · next text last_start hpush =>
    cases h
    have hnil : ∀ seg ∈ ([] : List Str), seg ≠ [] := fun seg hseg => (List.not_mem_nil hseg).elim
    have hpush' : pushSegments regime segs (joined regime []) none = .ok (text, some last_start) := hpush
    have hnone : ∀ n ∈ (none : Option ℕ), [].getLast? = some ((joined regime []).drop n) := by
      rintro n ⟨⟩
    obtain ⟨hsegs, htext, hstart, hlast⟩ := pushSegments_eq_ok hnil rfl hnone hpush'
    rw [List.nil_append] at htext hstart hlast
    subst htext
    have hne : segs ≠ [] := by
      rintro rfl
      cases hstart
    have hgood : ∀ e ∈ segs, e ≠ [] ∧ ∀ c ∈ e, is_sep c regime = false :=
      fun e he => ⟨(hsegs e he).ne_nil, (hsegs e he).no_sep⟩
    have hvolume : Volume.parse (joined regime segs) regime = .None := by
      cases regime with
      | Unix => rfl
      | Windows =>
        refine parse_joined hgood ?_
        rintro ⟨c, name, -, hhead⟩
        exact (hsegs _ (List.mem_of_mem_head? hhead)).no_colon (by simp)
    refine ⟨rfl, ⟨?_, ?_, hlast last_start rfl, hne, hvolume, ?_, fun base pre hpre => ?_⟩⟩
    · refine Lib.Lexical.splitOnP_intercalate (by simp) hne fun e he c hc => ?_
      simpa using separator_ne ((hgood e he).2 c hc)
    · change elementsOf regime (joined regime segs) = segs
      rw [elementsOf_joined fun e he => (hgood e he).2, if_neg hne]
    · change is_rooted (joined regime segs) regime = false
      unfold is_rooted
      rw [(volumeText_none hvolume).2]
      exact head_joined hgood
    · have hmoves : pre.map (readMove regime) = pre.map .down :=
        List.map_congr_left fun e he => (hsegs e (hpre.subset he)).readMove_eq
      change walk false ⟨0, base⟩ (pre.map (readMove regime)) = _
      rw [hmoves, Lib.Lexical.walk_down]

/-! ### The two constructors -/

/-- A sealed path keeps what it promises exactly if no element of dots and spaces is hidden behind a
drive in its text, and a relative path of segments always does. -/
theorem sealed_iff (regime : Regime) :
    (∀ text s, seal_text text regime = .ok s → (Sealed s regime ↔ ¬ DisguisedHead text regime)) ∧
    ∀ segs p, RelPath.from_segments segs regime = .ok p → p.regime = regime ∧ Relative segs p := by
  refine ⟨fun text s h => ⟨fun hsealed hhead => ?_, sealed_of_ok h⟩,
    fun segs p h => from_segments_eq_ok h⟩
  exact not_sealed_of_disguised h hhead hsealed

/-- The parent hides behind a drive as `. .`, and `C:.`, which `.\C:.` is sealed to, is not sealed to
itself. -/
theorem parent_hides_behind_drive :
    seal_text "C:. .\\x".toList .Windows = .ok "C:. .\\x".toList ∧
    elementsOf .Windows (afterVolume "C:. .\\x".toList .Windows) = [". .".toList, "x".toList] ∧
    ElementClass.of ". .".toList = .DisguisedParent ∧
    readMove .Windows ". .".toList = .up ∧
    seal_text ".\\C:.".toList .Windows = .ok "C:.".toList ∧
    seal_text "C:.".toList .Windows = .ok "C:".toList := by
  refine ⟨by decide, by decide, by decide, by decide, by decide, by decide⟩

/-- `a\..\b` and the segments `a` and `b.css` under Windows. -/
theorem sealed_iff_windows :
    (Sealed "b".toList .Windows ↔ ¬ DisguisedHead "a\\..\\b".toList .Windows) ∧
    Relative ["a".toList, "b.css".toList] ⟨"a\\b.css".toList, 2, .Windows⟩ :=
  ⟨(sealed_iff .Windows).1 "a\\..\\b".toList "b".toList (by decide),
    ((sealed_iff .Windows).2 ["a".toList, "b.css".toList] ⟨"a\\b.css".toList, 2, .Windows⟩
      (by decide)).2⟩

end IpeLang.Runtime.PathCore
