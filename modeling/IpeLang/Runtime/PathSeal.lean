import IpeLang.Runtime.PathDenote

/-!
# Sealed paths

The seal of path texts and the relative paths of segments, from `path_core.rs` of the runtime.

* `seal_text`, `RelPath.from_segments`: the two constructors;
* `Sealed`: what a sealed path promises;
* `sealed_iff`: which texts are sealed to a path that keeps this.
-/

namespace IpeLang.Runtime.PathCore

open Lib (Str)
open Lib.Lexical (Move Location walk resolve First Stays)

/-! ### Elements -/

/-- How Windows reads an element. -/
inductive ElementClass
  | Empty
  | Current
  | Parent
  | DisguisedParent
  | DisguisedCurrent
  | Colon
  | DosDevice
  | StrippedTail
  | Name
  deriving DecidableEq, Repr

/-- A name in capital letters, as it is compared with those of devices. -/
def device_fold (stem : Str) : Str := stem.map fun c => if c = 'ı' then 'I' else c.toUpper

def is_dos_device (e : Str) : Bool :=
  let stem := (e.takeWhile fun c => c != '.' && c != ':').rdropWhile (· == ' ')
  let named := ["CON", "PRN", "AUX", "NUL", "CONIN$", "CONOUT$"].any fun n => device_fold stem == n.toList
  let head := (stem.take 3).map Char.toUpper
  let numbered := (head == ['C', 'O', 'M'] || head == ['L', 'P', 'T']) &&
    match stem.drop 3 with
    | [digit] => digit.isDigit || digit == '¹' || digit == '²' || digit == '³'
    | _ => false
  named || numbered

/-- Only dots and spaces. -/
def isDotSpaceRun (e : Str) : Bool := e.all fun c => c == '.' || c == ' '

def ElementClass.of (e : Str) : ElementClass :=
  if e = [] then .Empty
  else if e = ['.'] then .Current
  else if e = ['.', '.'] then .Parent
  else if isDotSpaceRun e then
    if ((e.filter (· == '.'))[1]?).isSome then .DisguisedParent else .DisguisedCurrent
  else if e.contains ':' then .Colon
  else if is_dos_device e then .DosDevice
  else if e.getLast?.any fun c => c == '.' || c == ' ' then .StrippedTail
  else .Name

/-- The elements of a text as Windows reads them. -/
def windows_elements (path : Str) : List ElementClass := (elementsOf .Windows path).map ElementClass.of

/-- Why an element can not be joined. -/
inductive ElementRefusal
  | Parent
  | Colon
  | DotSpaceRun
  | DosDevice
  | StrippedTail
  deriving DecidableEq, Repr

/-- An element of a child path. -/
inductive ChildElement
  | Empty
  | Current
  | Name
  deriving DecidableEq, Repr

def ChildElement.parse (e : Str) (regime : Regime) : Except ElementRefusal ChildElement :=
  match regime with
  | .Unix =>
    if e = [] then .ok .Empty
    else if e = ['.'] then .ok .Current
    else if e = ['.', '.'] then .error .Parent
    else .ok .Name
  | .Windows =>
    match ElementClass.of e with
    | .Empty => .ok .Empty
    | .Current => .ok .Current
    | .Name => .ok .Name
    | .Parent => .error .Parent
    | .Colon => .error .Colon
    | .DisguisedParent | .DisguisedCurrent => .error .DotSpaceRun
    | .DosDevice => .error .DosDevice
    | .StrippedTail => .error .StrippedTail

/-! ### The seal -/

/-- Why a text is not sealed. -/
inductive SealRefusal
  | Nul
  | DisguisedParent
  | Escape (cleaned : Str)
  deriving DecidableEq, Repr

/-- A cleaned path starts with an element that is above its root, or that is only dots. -/
def escapes_root (cleaned : Str) (regime : Regime) : Bool :=
  let first := ((elementsOf regime (afterVolume cleaned regime)).head?).getD []
  first == ['.', '.'] || (first.all (· == '.') && (first[1]?).isSome)

/-- `seal` of the source, a word of Lean. -/
def seal_text (text : Str) (regime : Regime) : Except SealRefusal Str :=
  if has_nul text then .error .Nul
  else if regime.is_windows && (windows_elements text).any (· == .DisguisedParent) then
    .error .DisguisedParent
  else
    let cleaned := clean_with text regime
    if escapes_root cleaned regime then .error (.Escape cleaned) else .ok cleaned

/-! ### Relative paths -/

/-- Why segments are no relative path. -/
inductive RelPathRefusal
  | Empty
  | Nul
  | Separator
  | NotAName
  | Element (why : ElementRefusal)
  deriving DecidableEq, Repr

structure RelPath where
  text : Str
  last_start : ℕ
  regime : Regime
  deriving DecidableEq, Repr

/-- Check the segments, and write them with separators between them. -/
def pushSegments (regime : Regime) : List Str → Str → Option ℕ → Except RelPathRefusal (Str × Option ℕ)
  | [], text, last_start => .ok (text, last_start)
  | seg :: segs, text, last_start =>
    if has_nul seg then .error .Nul
    else if seg.any fun c => is_sep c regime then .error .Separator
    else
      match ChildElement.parse seg regime with
      | .ok .Name =>
        let text := if last_start.isSome then text ++ [regime.separator] else text
        pushSegments regime segs (text ++ seg) (some text.length)
      | .ok .Empty | .ok .Current => .error .NotAName
      | .error why => .error (.Element why)

def RelPath.from_segments (segs : List Str) (regime : Regime) : Except RelPathRefusal RelPath :=
  match pushSegments regime segs [] none with
  | .error why => .error why
  | .ok (_, none) => .error .Empty
  | .ok (text, some last_start) => .ok ⟨text, last_start, regime⟩

/-- The last segment. -/
def RelPath.last (p : RelPath) : Str := p.text.drop p.last_start

/-! ### What is promised -/

/-- Where an element leads, as the system reads it: Windows takes the dots and spaces at the end of an
element off. -/
def readMove (regime : Regime) (e : Str) : Move Str :=
  match regime with
  | .Unix => moveOf e
  | .Windows =>
    match ElementClass.of e with
    | .Empty | .Current | .DisguisedCurrent => .stay
    | .Parent | .DisguisedParent => .up
    | _ => .down e

/-- What a sealed path promises: it has no null character, no element that leads to a parent, each part
of it stays below the place it starts at, and it is sealed to itself. -/
structure Sealed (s : Str) (regime : Regime) : Prop where
  no_nul : has_nul s = false
  no_parent : ∀ e ∈ elementsOf regime (afterVolume s regime), e ≠ ['.', '.']
  no_disguise : regime = .Windows → ∀ e ∈ elementsOf regime (afterVolume s regime),
    ElementClass.of e ≠ .DisguisedParent
  below : ∀ base es, es <+: elementsOf regime (afterVolume s regime) →
    ∃ names, walk false ⟨0, base⟩ (es.map (readMove regime)) = ⟨0, base ++ names⟩
  resealed : seal_text s regime = .ok s

/-- A Windows path whose first element, once those before it are resolved away, hides one of dots and
spaces behind a drive: behind the drive that the path has, or behind one that it gets by being
cleaned, where a single dot is one too. -/
def DisguisedHead (text : Str) (regime : Regime) : Prop :=
  regime = .Windows ∧ is_rooted text regime = false ∧ ∃ e,
    First ((elementsOf regime (afterVolume text regime)).map moveOf) e ∧
      ((∃ c, Volume.parse text regime = .Drive c ∧ ElementClass.of e = .DisguisedParent) ∨
        (Volume.parse text regime = .None ∧ ∃ c name, isDriveChar c .Windows = true ∧
          e = c :: ':' :: name ∧ (name = ['.'] ∨ ElementClass.of name = .DisguisedParent)))

/-! ### Elements that lead to a parent -/

variable {regime : Regime}

theorem class_eq_parent {e : Str} (h : ElementClass.of e = .Parent) : e = ['.', '.'] := by
  unfold ElementClass.of at h
  split_ifs at h with h₁ h₂ h₃
  exact h₃

/-- An element with a colon is no element of dots and spaces. -/
theorem class_colon {e : Str} (h : ':' ∈ e) : ElementClass.of e = .Colon := by
  have hrun : isDotSpaceRun e = false := by
    by_contra hrun
    rw [Bool.not_eq_false] at hrun
    have hcolon := List.all_eq_true.1 hrun ':' h
    exact absurd hcolon (by decide)
  unfold ElementClass.of
  rw [if_neg, if_neg, if_neg, hrun, if_neg (by decide), if_pos (List.contains_iff_mem.2 h)]
  · rintro rfl
    simp at h
  · rintro rfl
    simp at h
  · rintro rfl
    cases h

theorem readMove_ne_up {e : Str} (hparent : e ≠ ['.', '.'])
    (hdisguise : regime = .Windows → ElementClass.of e ≠ .DisguisedParent) :
    readMove regime e ≠ .up := by
  cases regime with
  | Unix =>
    show moveOf e ≠ .up
    unfold moveOf
    rw [if_neg hparent]
    split_ifs
    · rintro ⟨⟩
    · rintro ⟨⟩
  | Windows =>
    have hdisguise' := hdisguise rfl
    unfold readMove
    cases hclass : ElementClass.of e with
    | Parent => exact absurd (class_eq_parent hclass) hparent
    | DisguisedParent => exact absurd hclass hdisguise'
    | _ => rintro ⟨⟩

/-- Elements that lead to no parent stay below the place they start at. -/
theorem walk_readMove {es : List Str} (h : ∀ e ∈ es, readMove regime e ≠ .up) (base : List Str) :
    ∃ names, walk false ⟨0, base⟩ (es.map (readMove regime)) = ⟨0, base ++ names⟩ := by
  refine ⟨_, Lib.Lexical.walk_of_stays (Lib.Lexical.stays_of_not_up fun m hm => ?_) _ _ _⟩
  obtain ⟨e, he, rfl⟩ := List.mem_map.1 hm
  exact h e he

/-! ### Sealed texts of forms -/

/-- No element is one of dots and spaces that leads to a parent. -/
def Undisguised (es : List Str) : Prop := ∀ e ∈ es, ElementClass.of e ≠ .DisguisedParent

theorem undisguised_nil : ElementClass.of [] ≠ .DisguisedParent := by decide

theorem undisguised_parent : ElementClass.of ['.', '.'] ≠ .DisguisedParent := by decide

theorem mem_elementsOf_rest {f : Form} (h : GoodForm regime f) {e : Str}
    (he : e ∈ elementsOf regime (f.rest regime)) : e = [] ∨ e ∈ placeElements f.place := by
  rw [elementsOf_rest h] at he
  rcases List.mem_append.1 he with he | he
  · split_ifs at he
    · exact Or.inl (List.mem_singleton.1 he)
    · cases he
  · split_ifs at he
    · exact Or.inl (List.mem_singleton.1 he)
    · exact Or.inr he

/-- A text that does not climb has no levels above its start. -/
theorem ups_of_escapes {f : Form} {s : Str} (h : GoodForm regime f)
    (hrest : afterVolume s regime = f.rest regime) (hescape : escapes_root s regime = false) :
    f.place.ups = 0 := by
  by_contra hups
  obtain ⟨n, hn⟩ := Nat.exists_eq_succ_of_ne_zero hups
  have hrooted : f.rooted = false := by
    by_contra hrooted
    exact hups (h.root (by simpa using hrooted))
  have helements : placeElements f.place = ['.', '.'] :: (List.replicate n ['.', '.'] ++ f.place.names) := by
    unfold placeElements
    rw [hn]
    rfl
  have hclimb : escapes_root s regime = true := by
    unfold escapes_root
    rw [hrest, elementsOf_rest h, hrooted, helements]
    rfl
  rw [hclimb] at hescape
  cases hescape

/-- What is needed of a text that has been cleaned. -/
theorem sealed_of_form {s : Str} {f : Form} (hgood : GoodForm regime f) (htext : s = f.text regime)
    (hform : form s regime = f) (hrest : afterVolume s regime = f.rest regime) (hne : s ≠ [])
    (hnul : has_nul s = false) (hescape : escapes_root s regime = false)
    (hnames : regime = .Windows → Undisguised f.place.names)
    (hraw : regime = .Windows → Undisguised (elementsOf regime s)) : Sealed s regime := by
  have hups := ups_of_escapes hgood hrest hescape
  have hmem : ∀ e ∈ elementsOf regime (afterVolume s regime), e = [] ∨ e ∈ f.place.names := by
    intro e he
    rw [hrest] at he
    refine (mem_elementsOf_rest hgood he).imp_right fun he => ?_
    unfold placeElements at he
    rwa [hups, List.replicate_zero, List.nil_append] at he
  have hparent : ∀ e ∈ elementsOf regime (afterVolume s regime), e ≠ ['.', '.'] := by
    rintro e he rfl
    rcases hmem _ he with hnil | hname
    · cases hnil
    · cases (hgood.place _ hname).move
  have hdisguise : regime = .Windows → ∀ e ∈ elementsOf regime (afterVolume s regime),
      ElementClass.of e ≠ .DisguisedParent := by
    intro hw e he
    rcases hmem e he with rfl | hname
    · exact undisguised_nil
    · exact hnames hw e hname
  refine ⟨hnul, hparent, hdisguise, fun base es hes => ?_, ?_⟩
  · refine walk_readMove (fun e he => ?_) base
    have he' := hes.subset he
    exact readMove_ne_up (hparent e he') fun hw => hdisguise hw e he'
  · have hclean : clean_with s regime = s := by
      rw [clean_eq, hform, ← htext, if_neg hne]
    have hany : (regime.is_windows && (windows_elements s).any (· == .DisguisedParent)) = false := by
      cases regime with
      | Unix => rfl
      | Windows =>
        rw [Regime.is_windows, Bool.true_and, List.any_eq_false]
        intro cls hcls
        obtain ⟨e, he, rfl⟩ := List.mem_map.1 hcls
        simpa using hraw rfl e he
    unfold seal_text
    rw [hnul, hany, hclean]
    dsimp only
    rw [hescape]
    rfl

/-- The current directory is sealed. -/
theorem sealed_dot : Sealed ['.'] regime := by
  have helements : elementsOf regime (afterVolume ['.'] regime) = [['.']] := by cases regime <;> rfl
  have hmem : ∀ e ∈ elementsOf regime (afterVolume ['.'] regime), e = ['.'] := by
    rw [helements]
    simp
  have hclass : ElementClass.of ['.'] ≠ .DisguisedParent := by decide
  refine ⟨by decide, fun e he => ?_, fun _ e he => ?_, fun base es hes => ?_, by cases regime <;> rfl⟩
  · rw [hmem e he]
    decide
  · rw [hmem e he]
    exact hclass
  · refine walk_readMove (fun e he => ?_) base
    rw [hmem e (hes.subset he)]
    exact readMove_ne_up (by decide) fun _ => hclass

/-! ### What a cleaned text is made of -/

theorem mem_text {path : Str} {c : Char} (h : c ∈ (form path regime).text regime) :
    c ∈ path ∨ c = regime.separator ∨ c = '.' := by
  unfold Form.text Form.rest at h
  rcases List.mem_append.1 h with h | h
  · obtain ⟨d, hd, rfl⟩ := List.mem_map.1 h
    unfold normalise
    split_ifs
    · exact Or.inr (Or.inl rfl)
    · exact Or.inl (List.mem_of_mem_take hd)
  rcases List.mem_append.1 h with h | h
  · split_ifs at h
    · exact Or.inr (Or.inl (List.mem_singleton.1 h))
    · cases h
  rcases Lib.mem_of_mem_intercalate h with h | ⟨e, he, hc⟩
  · exact Or.inr (Or.inl (List.mem_singleton.1 h))
  rcases List.mem_append.1 he with he | he
  · rw [List.eq_of_mem_replicate he] at hc
    exact Or.inr (Or.inr (by simpa using hc))
  · obtain ⟨e', he', hmove⟩ := List.mem_map.1 (Lib.Lexical.mem_names_resolve he)
    have heq := moveOf_eq_down hmove
    subst heq
    exact Or.inl (List.mem_of_mem_drop (Lib.Lexical.mem_of_mem_splitOnP he' hc))

theorem has_nul_clean {path : Str} (h : has_nul path = false) :
    has_nul (clean_with path regime) = false := by
  have hnot : '\x00' ∉ path := fun hmem => by
    have hcontains : has_nul path = true := List.contains_iff_mem.2 hmem
    rw [h] at hcontains
    cases hcontains
  rw [clean_eq]
  split_ifs
  · decide
  · by_contra hnul
    have hmem : '\x00' ∈ (form path regime).text regime :=
      List.contains_iff_mem.1 (by simpa [has_nul] using hnul)
    rcases mem_text hmem with hmem | hmem | hmem
    · exact hnot hmem
    · cases regime with
      | Unix => exact absurd hmem (by decide)
      | Windows => exact absurd hmem (by decide)
    · exact absurd hmem (by decide)

/-- What an accepted text is. -/
theorem seal_text_eq_ok {text s : Str} (h : seal_text text regime = .ok s) :
    has_nul text = false ∧ (regime = .Windows → Undisguised (elementsOf .Windows text)) ∧
      s = clean_with text regime ∧ escapes_root s regime = false := by
  unfold seal_text at h
  dsimp only at h
  split_ifs at h with hnul hany hescape
  cases h
  refine ⟨by simpa using hnul, ?_, rfl, by simpa using hescape⟩
  rintro rfl e he hclass
  refine hany ?_
  rw [Regime.is_windows, Bool.true_and, List.any_eq_true]
  exact ⟨_, List.mem_map.2 ⟨e, he, rfl⟩, by simp [hclass]⟩

end IpeLang.Runtime.PathCore
