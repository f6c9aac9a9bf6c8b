import IpeLang.Runtime.PathClean
import IpeLang.Runtime.PathVolume

/-!
# Which paths keep what they denote

A cleaned path has the volume and the root of the path, and its elements are the resolution of those
of the path, and it is cleaned already. This holds of all paths but the relative ones of Windows whose
first element looks like a drive, once those before it are resolved away (`clean_denotes_iff`).
-/

namespace IpeLang.Runtime.PathCore

open Lib (Str)
open Lib.Lexical (Move Location walk resolve First)

variable {regime : Regime}

/-! ### Forms are read back -/

theorem elementsOf_joined {es : List Str} (h : ∀ e ∈ es, ∀ c ∈ e, is_sep c regime = false) :
    elementsOf regime (joined regime es) = if es = [] then [[]] else es := by
  split_ifs with hnil
  · rw [hnil]
    rfl
  · exact Lib.Lexical.splitOnP_intercalate (p := fun c => is_sep c regime) (is_sep_separator regime) hnil h

theorem head_joined {es : List Str} (h : ∀ e ∈ es, e ≠ [] ∧ ∀ c ∈ e, is_sep c regime = false) :
    (joined regime es).head?.any (fun c => is_sep c regime) = false := by
  cases es with
  | nil => rfl
  | cons e es =>
    obtain ⟨hne, hsep⟩ := h e List.mem_cons_self
    obtain ⟨c, e, rfl⟩ := List.exists_cons_of_ne_nil hne
    have hjoined : ∃ s, joined regime ((c :: e) :: es) = c :: s := by
      cases es with
      | nil => exact ⟨e, by simp [joined]⟩
      | cons e' es => exact ⟨_, by rw [joined, List.intercalate_cons_cons]; rfl⟩
    obtain ⟨s, hs⟩ := hjoined
    rw [hs]
    simpa using hsep c List.mem_cons_self

/-- The forms of paths. -/
structure GoodForm (regime : Regime) (f : Form) : Prop where
  place : GoodPlace regime f.place
  root : f.rooted = true → f.place.ups = 0

theorem goodForm_form (path : Str) : GoodForm regime (form path regime) :=
  ⟨goodPlace_form path, ups_form⟩

section Rest

variable {f : Form}

/-- There is a separator after the volume exactly if there was one. -/
theorem head_rest (h : GoodForm regime f) :
    (f.rest regime).head?.any (fun c => is_sep c regime) = f.rooted := by
  unfold Form.rest
  cases hrooted : f.rooted with
  | true => simp
  | false => simpa using head_joined fun e he => h.place.elements he

theorem elementsOf_rest (h : GoodForm regime f) : elementsOf regime (f.rest regime) =
    (if f.rooted then [[]] else []) ++
      if placeElements f.place = [] then [[]] else placeElements f.place := by
  unfold Form.rest
  have hjoined := elementsOf_joined fun e he => (h.place.elements he).2
  cases f.rooted with
  | true =>
    rw [if_pos rfl, if_pos rfl, List.singleton_append, elementsOf_sep (is_sep_separator regime), hjoined]
    rfl
  | false => rw [if_neg (by decide), if_neg (by decide), List.nil_append, hjoined, List.nil_append]

/-- The elements lead to the place again. -/
theorem resolve_rest (h : GoodForm regime f) :
    resolve f.rooted ((elementsOf regime (f.rest regime)).map moveOf) = f.place := by
  have hmoves := h.place.moves
  have hplace : resolve f.rooted f.place.moves = f.place := Lib.Lexical.resolve_moves h.root
  have hstay : ∀ ms : List (Move Str), resolve f.rooted (Move.stay :: ms) = resolve f.rooted ms :=
    fun ms => rfl
  have helements : resolve f.rooted
      ((if placeElements f.place = [] then [[]] else placeElements f.place).map moveOf) = f.place := by
    split_ifs with hnil
    · rw [hnil] at hmoves
      rw [← hmoves] at hplace
      exact hplace
    · rw [hmoves, hplace]
  rw [elementsOf_rest h, List.map_append]
  cases hrooted : f.rooted with
  | true =>
    rw [hrooted] at helements
    exact helements
  | false =>
    rw [hrooted] at helements
    exact helements

/-- A text that has the volume and the rest of a form has this form. -/
theorem form_eq {text : Str} (h : GoodForm regime f)
    (hvolume : (volumeText text regime).map (normalise regime) = f.volume)
    (hrest : afterVolume text regime = f.rest regime) : form text regime = f := by
  have hrooted : is_rooted text regime = f.rooted := by
    unfold is_rooted
    rw [hrest, head_rest h]
  unfold form
  rw [hvolume, hrooted, hrest, resolve_rest h]

end Rest

/-! ### The volume of a cleaned path -/

/-- A relative Windows path whose first element looks like a drive, once those before it are resolved
away. -/
def HeadLooksLikeDrive (path : Str) (regime : Regime) : Prop :=
  regime = .Windows ∧ Volume.parse path regime = .None ∧ is_rooted path regime = false ∧
    ∃ c name, isDriveChar c .Windows = true ∧
      First ((elementsOf regime (afterVolume path regime)).map moveOf) (c :: ':' :: name)

theorem volumeText_none {path : Str} (h : Volume.parse path regime = .None) :
    volumeText path regime = [] ∧ afterVolume path regime = path := by
  unfold volumeText afterVolume volume_name_len
  rw [h]
  exact ⟨rfl, rfl⟩

/-- The first element of a place, if it looks like a drive. -/
theorem head_placeElements {p : Location Str} {c : Char} {name : Str} :
    (placeElements p).head? = some (c :: ':' :: name) ↔
      p.ups = 0 ∧ p.names.head? = some (c :: ':' :: name) := by
  obtain ⟨n, l⟩ := p
  cases n with
  | zero => simp [placeElements]
  | succ n =>
    simp only [placeElements, List.replicate_succ, List.cons_append, List.head?_cons,
      Option.some.injEq, Nat.succ_ne_zero, false_and, iff_false]
    intro h
    exact absurd (List.head_eq_of_cons_eq (List.tail_eq_of_cons_eq h)) (by decide)

theorem head_looks_like_drive_iff {path : Str} (hvolume : Volume.parse path .Windows = .None)
    (hrooted : is_rooted path .Windows = false) : HeadLooksLikeDrive path .Windows ↔
      ∃ c name, isDriveChar c .Windows = true ∧
        (placeElements (form path .Windows).place).head? = some (c :: ':' :: name) := by
  have hiff : ∀ c name, (placeElements (form path .Windows).place).head? = some (c :: ':' :: name) ↔
      First ((elementsOf .Windows (afterVolume path .Windows)).map moveOf) (c :: ':' :: name) := by
    intro c name
    rw [head_placeElements, ← Lib.Lexical.head_names_iff]
    unfold form
    rw [hrooted]
  constructor
  · rintro ⟨-, -, -, c, name, hc, hfirst⟩
    exact ⟨c, name, hc, (hiff c name).2 hfirst⟩
  · rintro ⟨c, name, hc, hhead⟩
    exact ⟨rfl, hvolume, hrooted, c, name, hc, (hiff c name).1 hhead⟩

/-- Elements one after the other have no volume, unless the first one looks like a drive. -/
theorem parse_joined {es : List Str} (h : ∀ e ∈ es, e ≠ [] ∧ ∀ c ∈ e, is_sep c .Windows = false)
    (hdrive : ¬ ∃ c name, isDriveChar c .Windows = true ∧ es.head? = some (c :: ':' :: name)) :
    Volume.parse (joined .Windows es) .Windows = .None := by
  have hparse : ∀ {c d : Char} {s : Str}, ¬ (d = ':' ∧ isDriveChar c .Windows = true) →
      is_sep c .Windows = false → Volume.parse (c :: d :: s) .Windows = .None := by
    intro c d s hdrive hc
    show (if d = ':' ∧ isDriveChar c .Windows = true then Volume.Drive c
      else if is_sep c .Windows = true ∧ is_sep d .Windows = true then Volume.server .Windows s
      else Volume.None) = _
    rw [if_neg hdrive, if_neg]
    rintro ⟨hc', -⟩
    rw [hc] at hc'
    cases hc'
  cases es with
  | nil => rfl
  | cons e es =>
    obtain ⟨hne, hsep⟩ := h e List.mem_cons_self
    rcases e with _ | ⟨c, _ | ⟨d, e⟩⟩
    · exact absurd rfl hne
    · have hc := hsep c List.mem_cons_self
      cases es with
      | nil => simp [joined, Volume.parse]
      | cons e' es =>
        rw [joined, List.intercalate_cons_cons]
        exact hparse (fun hcolon => absurd hcolon.1 (by decide)) hc
    · have hc := hsep c List.mem_cons_self
      have hnot : ¬ (d = ':' ∧ isDriveChar c .Windows = true) := by
        rintro ⟨rfl, hchar⟩
        exact hdrive ⟨c, e, hchar, rfl⟩
      cases es with
      | nil =>
        rw [joined, List.intercalate_singleton]
        exact hparse hnot hc
      | cons e' es =>
        rw [joined, List.intercalate_cons_cons]
        exact hparse hnot hc

/-- A text that starts at a root has no volume, if it is no text of two separators. -/
theorem parse_rooted {s : Str} (h : s.head?.any (fun c => is_sep c .Windows) = false) :
    Volume.parse ('\\' :: s) .Windows = .None := by
  cases s with
  | nil => rfl
  | cons d s =>
    have hd : is_sep d .Windows = false := by simpa using h
    show (if d = ':' ∧ isDriveChar '\\' .Windows = true then Volume.Drive '\\'
      else if is_sep '\\' .Windows = true ∧ is_sep d .Windows = true then Volume.server .Windows s
      else Volume.None) = _
    have hchar : ¬ (d = ':' ∧ isDriveChar '\\' .Windows = true) := fun hc => absurd hc.2 (by decide)
    rw [if_neg hchar, if_neg]
    rintro ⟨-, hd'⟩
    rw [hd] at hd'
    cases hd'

/-- The rest of a form ends a component where that of the path does. -/
theorem form_rest_end {path rest : Str} (hafter : afterVolume path regime = rest) :
    (rest = [] → (form path regime).rest regime = []) ∧
      (atEnd regime rest = true → atEnd regime ((form path regime).rest regime) = true) := by
  have hnil : rest = [] → (form path regime).rest regime = [] := by
    intro hrestnil
    have hform : (form path regime).rooted = false ∧ (form path regime).place = Location.start := by
      unfold form is_rooted
      rw [hafter, hrestnil]
      exact ⟨rfl, rfl⟩
    unfold Form.rest
    rw [hform.1, hform.2]
    rfl
  refine ⟨hnil, fun hend => ?_⟩
  cases rest with
  | nil =>
    rw [hnil rfl]
    rfl
  | cons c rest =>
    have hrooted : (form path regime).rooted = true := by
      unfold form is_rooted
      rw [hafter]
      simpa [atEnd] using hend
    have hhead := head_rest (f := form path regime) (goodForm_form path)
    rw [hrooted] at hhead
    unfold atEnd
    cases hr : ((form path regime).rest regime).head? with
    | none => rfl
    | some d =>
      rw [hr] at hhead
      simpa using hhead

/-- The volume and the rest of the text of a form. -/
theorem parse_text {path : Str} (h : ¬ HeadLooksLikeDrive path regime) :
    Volume.parse ((form path regime).text regime) regime = Volume.parse path regime ∧
      volumeText ((form path regime).text regime) regime = (form path regime).volume ∧
      afterVolume ((form path regime).text regime) regime = (form path regime).rest regime := by
  have hgood : GoodForm regime (form path regime) := goodForm_form path
  by_cases hnone : Volume.parse path regime = .None
  · have hvolume : (form path regime).volume = [] := by
      unfold form
      rw [(volumeText_none hnone).1]
      rfl
    have htext : (form path regime).text regime = (form path regime).rest regime := by
      unfold Form.text
      rw [hvolume, List.nil_append]
    have hparse : Volume.parse ((form path regime).rest regime) regime = .None := by
      cases regime with
      | Unix => rfl
      | Windows =>
        have helements : ∀ e ∈ placeElements (form path .Windows).place,
            e ≠ [] ∧ ∀ c ∈ e, is_sep c .Windows = false := fun e he => hgood.place.elements he
        unfold Form.rest
        cases hrooted : (form path .Windows).rooted with
        | true => exact parse_rooted (head_joined helements)
        | false =>
          rw [head_looks_like_drive_iff hnone hrooted] at h
          exact parse_joined helements h
    rw [htext, hvolume, hparse, hnone]
    exact ⟨rfl, volumeText_none hparse⟩
  · cases regime with
    | Unix => exact absurd rfl hnone
    | Windows =>
      obtain ⟨raw, rest, hpath, hat⟩ := volumeAt_parse hnone
      obtain ⟨hraw, hrest⟩ := hat.texts
      rw [← hpath] at hraw hrest
      obtain ⟨hnil, hend⟩ := form_rest_end hrest
      have hat' := hat.normalised hnil hend
      have hvolume : (form path .Windows).volume = raw.map (normalise .Windows) := by
        unfold form
        rw [hraw]
      unfold Form.text
      rw [hvolume]
      exact ⟨parse_of_volumeAt hat', hat'.texts⟩

/-- The text of a form has this form. -/
theorem form_text {path : Str} (h : ¬ HeadLooksLikeDrive path regime) :
    form ((form path regime).text regime) regime = form path regime := by
  obtain ⟨-, hvolume, hrest⟩ := parse_text h
  refine form_eq (goodForm_form path) ?_ hrest
  rw [hvolume]
  unfold form
  rw [List.map_map]
  exact List.map_congr_left fun c _ => normalise_normalise regime c

/-! ### What a cleaned path denotes -/

/-- The elements of a path after its volume, without the empty ones. -/
def elements (path : Str) (regime : Regime) : List Str :=
  (elementsOf regime (afterVolume path regime)).filter fun e => !e.isEmpty

/-- The lexical resolution of the elements of a path. -/
def resolution (path : Str) (regime : Regime) : List Str := placeElements
  (resolve (is_rooted path regime) ((elementsOf regime (afterVolume path regime)).map moveOf))

/-- A path denotes the same location as another one: its volume is the same, with the separators
normalised, it is rooted alike, and its elements are the resolution of the other's. The current
directory has an element of its own. -/
structure Denotes (cleaned path : Str) (regime : Regime) : Prop where
  volume : Volume.parse cleaned regime = Volume.parse path regime
  volumeText : volumeText cleaned regime = (volumeText path regime).map (normalise regime)
  rooted : is_rooted cleaned regime = is_rooted path regime
  elements : elements cleaned regime = resolution path regime ∨ (cleaned = ['.'] ∧
    Volume.parse path regime = .None ∧ is_rooted path regime = false ∧ resolution path regime = [])

/-- The elements of the rest of a form. -/
theorem filter_elementsOf_rest {f : Form} (h : GoodForm regime f) :
    ((elementsOf regime (f.rest regime)).filter fun e => !e.isEmpty) = placeElements f.place := by
  have hself : ((if placeElements f.place = [] then [[]] else placeElements f.place).filter
      fun e => !e.isEmpty) = placeElements f.place := by
    split_ifs with hnil
    · rw [hnil]
      rfl
    · refine List.filter_eq_self.2 fun e he => ?_
      simpa using (h.place.elements he).1
  rw [elementsOf_rest h, List.filter_append, hself]
  cases f.rooted <;> rfl

/-- A form without a text is that of the current directory. -/
theorem text_eq_nil {f : Form} (h : GoodForm regime f) :
    f.text regime = [] ↔ f.volume = [] ∧ f.rooted = false ∧ placeElements f.place = [] := by
  unfold Form.text Form.rest
  rw [List.append_eq_nil_iff, List.append_eq_nil_iff,
    joined_eq_nil fun e he => (h.place.elements he).1]
  cases f.rooted <;> simp

theorem denotes_of_not_drive {path : Str} (h : ¬ HeadLooksLikeDrive path regime) :
    Denotes (clean_with path regime) path regime ∧
      clean_with (clean_with path regime) regime = clean_with path regime := by
  have hgood : GoodForm regime (form path regime) := goodForm_form path
  have hform := form_text h
  obtain ⟨hparse, hvolume, hrest⟩ := parse_text h
  rw [clean_eq path]
  split_ifs with hnil
  · obtain ⟨hvol, hrooted, hplace⟩ := (text_eq_nil hgood).1 hnil
    rw [hnil] at hparse hvolume
    have hdot : Volume.parse ['.'] regime = Volume.parse [] regime := by cases regime <;> rfl
    have hdot' : volumeText ['.'] regime = volumeText [] regime := by cases regime <;> rfl
    have hnone : Volume.parse [] regime = .None := by cases regime <;> rfl
    have hclean : clean_with ['.'] regime = ['.'] := by cases regime <;> rfl
    have hroot : is_rooted ['.'] regime = false := by cases regime <;> rfl
    refine ⟨⟨hdot.trans hparse, hdot'.trans hvolume, hroot.trans hrooted.symm, Or.inr ?_⟩, hclean⟩
    exact ⟨rfl, hparse.symm.trans hnone, hrooted, hplace⟩
  · refine ⟨⟨hparse, hvolume, ?_, Or.inl ?_⟩, ?_⟩
    · exact congrArg Form.rooted hform
    · unfold elements
      rw [hrest]
      exact filter_elementsOf_rest hgood
    · rw [clean_eq, hform, if_neg hnil]

/-- A relative path with a head like this one is cleaned to a path on a drive. -/
theorem parse_of_drive {path : Str} (h : HeadLooksLikeDrive path regime) :
    ∃ c, Volume.parse (clean_with path regime) regime = .Drive c := by
  obtain ⟨rfl, hvolume, hrooted, -⟩ := id h
  obtain ⟨c, name, hc, hhead⟩ := (head_looks_like_drive_iff hvolume hrooted).1 h
  have hvol : (form path .Windows).volume = [] := by
    unfold form
    rw [(volumeText_none hvolume).1]
    rfl
  have htext : ∃ s, (form path .Windows).text .Windows = c :: ':' :: s := by
    unfold Form.text Form.rest
    rw [hvol, show (form path .Windows).rooted = false from hrooted]
    obtain ⟨es, hes⟩ : ∃ es, placeElements (form path .Windows).place = (c :: ':' :: name) :: es := by
      cases hp : placeElements (form path .Windows).place with
      | nil =>
        rw [hp] at hhead
        cases hhead
      | cons e es =>
        rw [hp] at hhead
        cases hhead
        exact ⟨es, rfl⟩
    rw [hes]
    cases es with
    | nil => exact ⟨name, by simp [joined]⟩
    | cons e es => exact ⟨_, by rw [joined, List.intercalate_cons_cons]; rfl⟩
  obtain ⟨s, hs⟩ := htext
  refine ⟨c, ?_⟩
  rw [clean_eq, hs, if_neg (List.cons_ne_nil _ _)]
  have hat : VolumeAt (.Drive c) [c, ':'] s := .drive hc
  exact parse_of_volumeAt hat

/-- A cleaned path denotes the same location, and is cleaned, exactly if it is no relative Windows path
whose first element looks like a drive once those before it are resolved away. -/
theorem clean_denotes_iff (path : Str) (regime : Regime) :
    (Denotes (clean_with path regime) path regime ∧
      clean_with (clean_with path regime) regime = clean_with path regime) ↔
      ¬ HeadLooksLikeDrive path regime := by
  refine ⟨fun h hdrive => ?_, denotes_of_not_drive⟩
  obtain ⟨c, hc⟩ := parse_of_drive hdrive
  have hnone := hdrive.2.1
  rw [h.1.volume, hnone] at hc
  cases hc

/-- `.\C:\x` is relative, and it is cleaned to a path at the root of a drive. -/
theorem clean_makes_a_drive :
    Volume.parse ".\\C:\\x".toList .Windows = .None ∧
    clean_with ".\\C:\\x".toList .Windows = "C:\\x".toList ∧
    Volume.parse (clean_with ".\\C:\\x".toList .Windows) .Windows = .Drive 'C' ∧
    is_rooted ".\\C:\\x".toList .Windows = false ∧
    is_rooted (clean_with ".\\C:\\x".toList .Windows) .Windows = true ∧
    clean_with (clean_with ".\\C:.".toList .Windows) .Windows ≠ clean_with ".\\C:.".toList .Windows := by
  refine ⟨by decide, by decide, by decide, by decide, by decide, by decide⟩

end IpeLang.Runtime.PathCore
