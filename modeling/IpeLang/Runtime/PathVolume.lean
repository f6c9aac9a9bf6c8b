import IpeLang.Runtime.PathCore

/-!
# Volumes of Windows paths

The grammar of volumes, as a relation between a volume, its text and the text after it.

* `volumeAt_parse`, `parse_of_volumeAt`: the parser of volumes reads this grammar;
* `VolumeAt.normalised`: with its separators normalised, the text of a volume is one of the same
  volume, before any text that starts alike.
-/

namespace IpeLang.Runtime.PathCore

open Lib (Str)

/-! ### Components -/

/-- A text without separators. -/
def NoSep (s : Str) : Prop := ∀ c ∈ s, is_sep c .Windows = false

theorem split_component_noSep {s : Str} (hs : NoSep s) : split_component s .Windows = (s, none) := by
  have htake : (s.takeWhile fun c => !is_sep c .Windows) = s :=
    List.takeWhile_eq_self_iff.2 fun c hc => by rw [hs c hc]; rfl
  have hdrop : (s.dropWhile fun c => !is_sep c .Windows) = [] :=
    List.dropWhile_eq_nil_iff.2 fun c hc => by rw [hs c hc]; rfl
  unfold split_component
  rw [htake, hdrop]

theorem split_component_sep {s : Str} (hs : NoSep s) {c : Char} (hc : is_sep c .Windows = true)
    (rest : Str) : split_component (s ++ c :: rest) .Windows = (s, some rest) := by
  have hnot : ∀ d ∈ s, (!is_sep d .Windows) = true := fun d hd => by rw [hs d hd]; rfl
  unfold split_component
  rw [List.takeWhile_append_of_pos hnot, List.dropWhile_append_of_pos hnot, List.takeWhile_cons,
    List.dropWhile_cons, hc]
  simp

/-- A text is cut before its first separator. -/
theorem split_component_cases (s : Str) : (NoSep s ∧ split_component s .Windows = (s, none)) ∨
    ∃ first c rest, NoSep first ∧ is_sep c .Windows = true ∧ s = first ++ c :: rest ∧
      split_component s .Windows = (first, some rest) := by
  induction s with
  | nil => exact Or.inl ⟨fun c hc => (List.not_mem_nil hc).elim, rfl⟩
  | cons d s ih =>
    by_cases hd : is_sep d .Windows = true
    · have hnil : NoSep [] := fun c hc => (List.not_mem_nil hc).elim
      exact Or.inr ⟨[], d, s, hnil, hd, rfl, split_component_sep hnil hd s⟩
    · rw [Bool.not_eq_true] at hd
      rcases ih with ⟨hs, -⟩ | ⟨first, c, rest, hfirst, hc, rfl, -⟩
      · have hds : NoSep (d :: s) := List.forall_mem_cons.2 ⟨hd, hs⟩
        exact Or.inl ⟨hds, split_component_noSep hds⟩
      · have hds : NoSep (d :: first) := List.forall_mem_cons.2 ⟨hd, hfirst⟩
        exact Or.inr ⟨d :: first, c, rest, hds, hc, rfl, split_component_sep hds hc rest⟩

theorem component_append {s rest : Str} (hs : NoSep s) (hrest : atEnd .Windows rest = true) :
    component .Windows (s ++ rest) = s := by
  unfold component
  cases rest with
  | nil => rw [List.append_nil, split_component_noSep hs]
  | cons c rest => rw [split_component_sep hs (by simpa [atEnd] using hrest)]

/-- A text is its first component and the rest. -/
theorem exists_component (s : Str) : ∃ rest, s = component .Windows s ++ rest ∧
    NoSep (component .Windows s) ∧ atEnd .Windows rest = true := by
  unfold component
  rcases split_component_cases s with ⟨hs, heq⟩ | ⟨first, c, rest, hfirst, hc, rfl, heq⟩
  · rw [heq]
    exact ⟨[], (List.append_nil s).symm, hs, rfl⟩
  · rw [heq]
    exact ⟨c :: rest, rfl, hfirst, by simpa [atEnd] using hc⟩

/-! ### The grammar -/

/-- A component after a separator, or nothing and the end. -/
inductive TailAt : Option Str → Str → Str → Prop
  | none : TailAt none [] []
  | some {c : Char} {part rest : Str} (hc : is_sep c .Windows = true) (hpart : NoSep part)
      (hrest : atEnd .Windows rest = true) : TailAt (some part) (c :: part) rest

def Namespace.char : Namespace → Char
  | .Verbatim => '?'
  | .Device => '.'

/-- A volume, its text, and the text after it. -/
inductive VolumeAt : Volume → Str → Str → Prop
  | drive {c : Char} {rest : Str} (hc : isDriveChar c .Windows = true) :
      VolumeAt (.Drive c) [c, ':'] rest
  | unc {s₁ s₂ : Char} {server tail rest : Str} {share : Option Str} (h₁ : is_sep s₁ .Windows = true)
      (h₂ : is_sep s₂ .Windows = true) (hserver : NoSep server) (hverbatim : server ≠ ['?'])
      (hdevice : server ≠ ['.']) (htail : TailAt share tail rest) :
      VolumeAt (.Unc server share) (s₁ :: s₂ :: (server ++ tail)) rest
  | verbatimUnc {s₁ s₂ s₃ s₄ : Char} {name server tail rest : Str} {share : Option Str}
      (h₁ : is_sep s₁ .Windows = true) (h₂ : is_sep s₂ .Windows = true)
      (h₃ : is_sep s₃ .Windows = true) (h₄ : is_sep s₄ .Windows = true) (hname : NoSep name)
      (hunc : isUnc name = true) (hserver : NoSep server) (htail : TailAt share tail rest) :
      VolumeAt (.VerbatimUnc server share)
        (s₁ :: s₂ :: '?' :: s₃ :: (name ++ s₄ :: (server ++ tail))) rest
  | namespaced {s₁ s₂ : Char} {tag : Namespace} {tail rest : Str} {name : Option Str}
      (h₁ : is_sep s₁ .Windows = true) (h₂ : is_sep s₂ .Windows = true)
      (htail : TailAt name tail rest)
      (hunc : tag = .Verbatim → ∀ n, name = some n → isUnc n = true → rest = []) :
      VolumeAt (.Namespaced tag name) (s₁ :: s₂ :: tag.char :: tail) rest

theorem TailAt.length {name : Option Str} {tail rest : Str} (h : TailAt name tail rest) :
    tail_len name = tail.length := by
  cases h with
  | none => rfl
  | some hc hpart hrest => exact Nat.add_comm _ _

theorem length_of_isUnc {name : Str} (h : isUnc name = true) : name.length = 3 := by
  have heq : name.map Char.toUpper = ['U', 'N', 'C'] := by simpa [isUnc] using h
  have hlength := congrArg List.length heq
  simpa using hlength

theorem VolumeAt.length {v : Volume} {raw rest : Str} (h : VolumeAt v raw rest) :
    v.len = raw.length := by
  cases h with
  | drive hc => rfl
  | unc h₁ h₂ hserver hverbatim hdevice htail =>
    simp only [Volume.len, htail.length, List.length_cons, List.length_append]
    omega
  | verbatimUnc h₁ h₂ h₃ h₄ hname hunc hserver htail =>
    simp only [Volume.len, htail.length, List.length_cons, List.length_append, length_of_isUnc hunc]
    omega
  | namespaced h₁ h₂ htail hunc =>
    simp only [Volume.len, htail.length, List.length_cons]
    omega

/-! ### The parser reads the grammar -/

theorem not_colon_of_is_sep {c : Char} (hc : is_sep c .Windows = true) : c ≠ ':' := by
  rintro rfl
  rw [is_sep_colon] at hc
  cases hc

/-- After two separators, there is a server or a namespace. -/
theorem parse_sep_sep {s₁ s₂ : Char} (h₁ : is_sep s₁ .Windows = true)
    (h₂ : is_sep s₂ .Windows = true) (rest : Str) :
    Volume.parse (s₁ :: s₂ :: rest) .Windows = Volume.server .Windows rest := by
  have hcolon : ¬ (s₂ = ':' ∧ isDriveChar s₁ .Windows = true) := fun h => not_colon_of_is_sep h₂ h.1
  show (if s₂ = ':' ∧ isDriveChar s₁ .Windows = true then Volume.Drive s₁
    else if is_sep s₁ .Windows = true ∧ is_sep s₂ .Windows = true then Volume.server .Windows rest
    else Volume.None) = _
  rw [if_neg hcolon, if_pos ⟨h₁, h₂⟩]

/-- The server of a text that starts with a component. -/
theorem server_eq {first s : Str} {after : Option Str}
    (h : split_component s .Windows = (first, after)) : Volume.server .Windows s =
      if first = ['?'] then Volume.namespaced .Windows .Verbatim after
      else if first = ['.'] then Volume.namespaced .Windows .Device after
      else .Unc first (after.map (component .Windows)) := by
  unfold Volume.server
  rw [h]

/-- A component and its tail are read. -/
theorem split_component_tail {first tail rest : Str} {name : Option Str} (hfirst : NoSep first)
    (h : TailAt name tail rest) : ∃ after, split_component (first ++ (tail ++ rest)) .Windows =
      (first, after) ∧ after.map (component .Windows) = name ∧
      (after = none → rest = []) ∧ ∀ a, after = some a → ∃ n, name = some n ∧ NoSep n ∧ a = n ++ rest ∧
        atEnd .Windows rest = true := by
  cases h with
  | none =>
    refine ⟨none, ?_, rfl, fun _ => rfl, ?_⟩
    · simpa using split_component_noSep hfirst
    · rintro a ⟨⟩
  | @some c part rest hc hpart hrest =>
    refine ⟨some (part ++ rest), split_component_sep hfirst hc _, ?_, ?_, ?_⟩
    · rw [Option.map_some, component_append hpart hrest]
    · rintro ⟨⟩
    · rintro a ⟨⟩
      exact ⟨part, rfl, hpart, rfl, hrest⟩

theorem noSep_char {c : Char} (hc : is_sep c .Windows = false) : NoSep [c] := by
  intro d hd
  rw [List.mem_singleton.1 hd]
  exact hc

/-- The parser reads a volume where there is one. -/
theorem parse_of_volumeAt {v : Volume} {raw rest : Str} (h : VolumeAt v raw rest) :
    Volume.parse (raw ++ rest) .Windows = v := by
  cases h with
  | drive hc =>
    show (if ':' = ':' ∧ isDriveChar _ .Windows = true then Volume.Drive _ else _) = _
    rw [if_pos ⟨rfl, hc⟩]
  | @unc s₁ s₂ server tail rest share h₁ h₂ hserver hverbatim hdevice htail =>
    obtain ⟨after, hsplit, hname, -⟩ := split_component_tail hserver htail
    rw [List.cons_append, List.cons_append, parse_sep_sep h₁ h₂, List.append_assoc, server_eq hsplit,
      if_neg hverbatim, if_neg hdevice, hname]
  | @verbatimUnc s₁ s₂ s₃ s₄ name server tail rest share h₁ h₂ h₃ h₄ hname hunc hserver htail =>
    obtain ⟨after, hsplit, hshare, -⟩ := split_component_tail hserver htail
    have hq : NoSep ['?'] := noSep_char (by decide)
    have hfirst := split_component_sep hq h₃ (name ++ s₄ :: (server ++ (tail ++ rest)))
    have hsecond := split_component_sep hname h₄ (server ++ (tail ++ rest))
    simp only [List.cons_append, List.append_assoc]
    rw [parse_sep_sep h₁ h₂]
    rw [List.singleton_append] at hfirst
    rw [server_eq hfirst, if_pos rfl]
    unfold Volume.namespaced
    dsimp only
    rw [hsecond]
    dsimp only
    rw [if_pos hunc, hsplit]
    dsimp only
    rw [hshare]
  | @namespaced s₁ s₂ tag tail rest name h₁ h₂ htail hunc =>
    have hchar : NoSep [tag.char] := noSep_char (by cases tag <;> decide)
    obtain ⟨after, hsplit, hname, -, hafter⟩ := split_component_tail hchar htail
    simp only [List.cons_append]
    rw [parse_sep_sep h₁ h₂]
    rw [List.singleton_append] at hsplit
    rw [server_eq hsplit]
    cases tag with
    | Device =>
      rw [if_neg (by decide), if_pos (show [Namespace.Device.char] = ['.'] from rfl)]
      unfold Volume.namespaced
      dsimp only
      rw [hname]
    | Verbatim =>
      rw [if_pos (show [Namespace.Verbatim.char] = ['?'] from rfl)]
      unfold Volume.namespaced
      cases after with
      | none =>
        dsimp only
        rw [hname]
      | some a =>
        obtain ⟨n, rfl, hn, rfl, hend⟩ := hafter a rfl
        dsimp only
        -- A second component makes a verbatim server only if the first one says so.
        cases rest with
        | nil =>
          rw [List.append_nil, split_component_noSep hn]
        | cons c rest =>
          have hc : is_sep c .Windows = true := by simpa [atEnd] using hend
          have hnot : isUnc n ≠ true := fun hu => List.cons_ne_nil c rest (hunc rfl n rfl hu)
          rw [split_component_sep hn hc]
          dsimp only
          rw [if_neg hnot, component_append hn hend]

theorem tailAt_component {c : Char} (hc : is_sep c .Windows = true) (a : Str) :
    ∃ rest, a = component .Windows a ++ rest ∧
      TailAt (some (component .Windows a)) (c :: component .Windows a) rest := by
  obtain ⟨rest, ha, hpart, hrest⟩ := exists_component a
  exact ⟨rest, ha, .some hc hpart hrest⟩

/-- What the parser of a server or a namespace has read. -/
theorem volumeAt_server {s₁ s₂ : Char} (h₁ : is_sep s₁ .Windows = true)
    (h₂ : is_sep s₂ .Windows = true) (s : Str) : ∃ raw rest, s = raw ++ rest ∧
      VolumeAt (Volume.server .Windows s) (s₁ :: s₂ :: raw) rest := by
  rcases split_component_cases s with ⟨hs, hsplit⟩ | ⟨first, c, a, hfirst, hc, rfl, hsplit⟩
  · refine ⟨s, [], (List.append_nil s).symm, ?_⟩
    rw [server_eq hsplit]
    split_ifs with hverbatim hdevice
    · rw [hverbatim]
      exact .namespaced h₁ h₂ .none (by rintro - n ⟨⟩)
    · rw [hdevice]
      exact .namespaced h₁ h₂ .none (by rintro ⟨⟩)
    · have hunc : VolumeAt (.Unc s none) (s₁ :: s₂ :: (s ++ [])) [] :=
        .unc h₁ h₂ hs hverbatim hdevice .none
      rwa [List.append_nil] at hunc
  · obtain ⟨rest, ha, htail⟩ := tailAt_component hc a
    rw [server_eq hsplit]
    split_ifs with hverbatim hdevice
    · unfold Volume.namespaced
      dsimp only
      rcases split_component_cases a with ⟨hn, hname⟩ | ⟨name, c', unc, hn, hc', rfl, hname⟩
      · refine ⟨first ++ c :: a, [], by simp, ?_⟩
        rw [hname, hverbatim]
        exact .namespaced h₁ h₂ (.some hc hn rfl) (fun _ _ _ _ => rfl)
      · rw [hname]
        dsimp only
        split_ifs with hunc
        · rcases split_component_cases unc with ⟨hsv, hserver⟩ |
            ⟨server, c'', share, hsv, hc'', rfl, hserver⟩
          · refine ⟨first ++ c :: (name ++ c' :: unc), [], by simp, ?_⟩
            have hvunc : VolumeAt (.VerbatimUnc unc none)
                (s₁ :: s₂ :: '?' :: c :: (name ++ c' :: (unc ++ []))) [] :=
              .verbatimUnc h₁ h₂ hc hc' hn hunc hsv .none
            rw [List.append_nil] at hvunc
            rw [hserver, hverbatim]
            exact hvunc
          · obtain ⟨rest', hshare, htail'⟩ := tailAt_component hc'' share
            refine ⟨first ++ c :: (name ++ c' :: (server ++ c'' :: component .Windows share)), rest',
              ?_, ?_⟩
            · rw [hshare, component_append (exists_component share).choose_spec.2.1]
              · simp
              · cases htail' with
                | some _ _ hrest => exact hrest
            · rw [hserver, hverbatim]
              exact .verbatimUnc h₁ h₂ hc hc' hn hunc hsv htail'
        · have hcomponent : component .Windows (name ++ c' :: unc) = name :=
            component_append hn (by simpa [atEnd] using hc')
          refine ⟨first ++ c :: name, c' :: unc, by simp, ?_⟩
          rw [hcomponent, hverbatim]
          refine .namespaced h₁ h₂ (.some hc hn (by simpa [atEnd] using hc')) ?_
          rintro - n ⟨⟩ hu
          exact absurd hu hunc
    · refine ⟨first ++ c :: component .Windows a, rest, ?_, ?_⟩
      · conv_lhs => rw [ha]
        simp
      · rw [hdevice]
        exact .namespaced h₁ h₂ htail (by rintro ⟨⟩)
    · refine ⟨first ++ c :: component .Windows a, rest, ?_, ?_⟩
      · conv_lhs => rw [ha]
        simp
      · exact .unc h₁ h₂ hfirst hverbatim hdevice htail

/-- What the parser of volumes has read. -/
theorem volumeAt_parse {path : Str} (h : Volume.parse path .Windows ≠ .None) :
    ∃ raw rest, path = raw ++ rest ∧ VolumeAt (Volume.parse path .Windows) raw rest := by
  rcases path with _ | ⟨c, _ | ⟨d, s⟩⟩
  · exact absurd rfl h
  · exact absurd rfl h
  · by_cases hdrive : d = ':' ∧ isDriveChar c .Windows = true
    · obtain ⟨rfl, hc⟩ := hdrive
      have hv : Volume.parse ([c, ':'] ++ s) .Windows = .Drive c := parse_of_volumeAt (.drive hc)
      refine ⟨[c, ':'], s, rfl, ?_⟩
      rw [show c :: ':' :: s = [c, ':'] ++ s from rfl, hv]
      exact .drive hc
    · by_cases hsep : is_sep c .Windows = true ∧ is_sep d .Windows = true
      · obtain ⟨raw, rest, hs, hat⟩ := volumeAt_server hsep.1 hsep.2 s
        rw [parse_sep_sep hsep.1 hsep.2]
        exact ⟨c :: d :: raw, rest, by rw [hs]; rfl, hs ▸ hat⟩
      · refine absurd ?_ h
        show (if d = ':' ∧ isDriveChar c .Windows = true then Volume.Drive c
          else if is_sep c .Windows = true ∧ is_sep d .Windows = true then Volume.server .Windows s
          else Volume.None) = _
        rw [if_neg hdrive, if_neg hsep]

/-! ### Normalised volumes -/

section Normalised

variable {rest rest' : Str}

theorem TailAt.normalised {name : Option Str} {tail : Str} (h : TailAt name tail rest)
    (hnil : rest = [] → rest' = []) (hend : atEnd .Windows rest = true → atEnd .Windows rest' = true) :
    TailAt name (tail.map (normalise .Windows)) rest' := by
  cases h with
  | none =>
    rw [hnil rfl]
    exact .none
  | some hc hpart hrest =>
    rw [List.map_cons, normalise_eq_self hpart]
    refine .some ?_ hpart (hend hrest)
    rw [is_sep_normalise]
    exact hc

/-- The text of a volume, with its separators normalised, before a text that ends a component like
the one that was there. -/
theorem VolumeAt.normalised {v : Volume} {raw : Str} (h : VolumeAt v raw rest)
    (hnil : rest = [] → rest' = [])
    (hend : atEnd .Windows rest = true → atEnd .Windows rest' = true) :
    VolumeAt v (raw.map (normalise .Windows)) rest' := by
  have hsep : ∀ {c : Char}, is_sep c .Windows = true →
      is_sep (normalise .Windows c) .Windows = true := fun hc => by rwa [is_sep_normalise]
  cases h with
  | @drive c rest hc =>
    have hc' : is_sep c .Windows = false := by
      have hboth := (Bool.and_eq_true _ _).mp hc
      simpa using hboth.1
    have hself : [c, ':'].map (normalise .Windows) = [c, ':'] :=
      normalise_eq_self (List.forall_mem_cons.2 ⟨hc', noSep_char (is_sep_colon _)⟩)
    rw [hself]
    exact .drive hc
  | unc h₁ h₂ hserver hverbatim hdevice htail =>
    rw [List.map_cons, List.map_cons, List.map_append, normalise_eq_self hserver]
    exact .unc (hsep h₁) (hsep h₂) hserver hverbatim hdevice (htail.normalised hnil hend)
  | verbatimUnc h₁ h₂ h₃ h₄ hname hunc hserver htail =>
    simp only [List.map_cons, List.map_append]
    rw [normalise_eq_self hname, normalise_eq_self hserver]
    exact .verbatimUnc (hsep h₁) (hsep h₂) (hsep h₃) (hsep h₄) hname hunc hserver
      (htail.normalised hnil hend)
  | @namespaced s₁ s₂ tag tail rest name h₁ h₂ htail hunc =>
    have htag : normalise .Windows tag.char = tag.char := by cases tag <;> rfl
    rw [List.map_cons, List.map_cons, List.map_cons, htag]
    exact .namespaced (hsep h₁) (hsep h₂) (htail.normalised hnil hend)
      fun ht n hn hu => hnil (hunc ht n hn hu)

end Normalised

/-- Where a volume and what is after it are in a path. -/
theorem VolumeAt.texts {v : Volume} {raw rest : Str} (h : VolumeAt v raw rest) :
    volumeText (raw ++ rest) .Windows = raw ∧ afterVolume (raw ++ rest) .Windows = rest := by
  unfold volumeText afterVolume volume_name_len
  rw [parse_of_volumeAt h, h.length, List.take_left, List.drop_left]
  exact ⟨rfl, rfl⟩

end IpeLang.Runtime.PathCore
