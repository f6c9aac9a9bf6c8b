import IpeLang.Lib.Lexical
import IpeLang.Lib.Text

/-!
# Lexical paths

The cleaner of path texts, from `path_core.rs` of the runtime. A text is a list of characters, and
lengths and places are those of characters: separators, dots, spaces and colons are single bytes of
the source's texts, so that it cuts them at the same places.

* `Volume.parse`: the volume that a Windows path starts with;
* `clean_with`: the loop over the text, with its output and the floor of its output;
* `cleanLoop_eq`: the loop goes from element to element.
-/

namespace IpeLang.Runtime.PathCore

open Lib (Str)
open Lib.Lexical (Move Location)

/-! ### Separators -/

/-- The separators that a path is read under. -/
inductive Regime
  | Unix
  | Windows
  deriving DecidableEq, Repr

def Regime.is_windows : Regime → Bool
  | .Unix => false
  | .Windows => true

/-- The separator that a cleaned path is written with. -/
def Regime.separator : Regime → Char
  | .Unix => '/'
  | .Windows => '\\'

def has_nul (s : Str) : Bool := s.contains '\x00'

def is_sep (c : Char) (regime : Regime) : Bool := c == '/' || (regime.is_windows && c == '\\')

@[simp] theorem is_sep_separator (regime : Regime) : is_sep regime.separator regime = true := by
  cases regime <;> decide

theorem is_sep_dot (regime : Regime) : is_sep '.' regime = false := by cases regime <;> decide

theorem is_sep_colon (regime : Regime) : is_sep ':' regime = false := by cases regime <;> decide

/-- A separator is written as the one of the regime. -/
def normalise (regime : Regime) (c : Char) : Char := if is_sep c regime then regime.separator else c

theorem normalise_eq_self {regime : Regime} {s : Str} (h : ∀ c ∈ s, is_sep c regime = false) :
    s.map (normalise regime) = s := by
  conv_rhs => rw [← List.map_id s]
  refine List.map_congr_left fun c hc => ?_
  simp [normalise, h c hc]

theorem is_sep_normalise (regime : Regime) (c : Char) :
    is_sep (normalise regime c) regime = is_sep c regime := by
  unfold normalise
  split_ifs with h
  · rw [h, is_sep_separator]
  · rfl

theorem normalise_normalise (regime : Regime) (c : Char) :
    normalise regime (normalise regime c) = normalise regime c := by
  rw [normalise, is_sep_normalise]
  split_ifs with h
  · rw [normalise, if_pos h]
  · rfl

/-! ### Volumes -/

inductive Namespace
  | Verbatim
  | Device
  deriving DecidableEq, Repr

/-- The volume at the start of a path under Windows rules. -/
inductive Volume
  | None
  | Drive (c : Char)
  | Unc (server : Str) (share : Option Str)
  | VerbatimUnc (server : Str) (share : Option Str)
  | Namespaced (tag : Namespace) (name : Option Str)
  deriving DecidableEq, Repr

/-- The text before the first separator, and the text after it if there is one. -/
def split_component (s : Str) (regime : Regime) : Str × Option Str :=
  (s.takeWhile fun c => !is_sep c regime,
    match s.dropWhile fun c => !is_sep c regime with
    | [] => none
    | _ :: rest => some rest)

def component (regime : Regime) (s : Str) : Str := (split_component s regime).1

/-- A character that a drive can have as its name: no separator, and one unit of UTF-16. -/
def isDriveChar (c : Char) (regime : Regime) : Bool := !is_sep c regime && c.val < 0x10000

def isUnc (name : Str) : Bool := name.map Char.toUpper == ['U', 'N', 'C']

/-- The volume after two separators, in the namespace of a tag. -/
def Volume.namespaced (regime : Regime) (tag : Namespace) (after : Option Str) : Volume :=
  match tag, after with
  | .Verbatim, some a =>
    match split_component a regime with
    | (name, some unc) =>
      if isUnc name then
        let (server, share) := split_component unc regime
        .VerbatimUnc server (share.map (component regime))
      else .Namespaced .Verbatim (some (component regime a))
    | (name, none) => .Namespaced .Verbatim (some name)
  | tag, after => .Namespaced tag (after.map (component regime))

/-- The volume after two separators. -/
def Volume.server (regime : Regime) (s : Str) : Volume :=
  let (first, after) := split_component s regime
  if first = ['?'] then Volume.namespaced regime .Verbatim after
  else if first = ['.'] then Volume.namespaced regime .Device after
  else .Unc first (after.map (component regime))

def Volume.parse (path : Str) (regime : Regime) : Volume :=
  if regime.is_windows then
    match path with
    | c :: d :: rest =>
      if d = ':' ∧ isDriveChar c regime then .Drive c
      else if is_sep c regime ∧ is_sep d regime then Volume.server regime rest
      else .None
    | _ => .None
  else .None

def tail_len (component : Option Str) : ℕ :=
  match component with
  | none => 0
  | some c => 1 + c.length

/-- The length of the text of a volume. -/
def Volume.len : Volume → ℕ
  | .None => 0
  | .Drive _ => 2
  | .Unc server share => 2 + server.length + tail_len share
  | .VerbatimUnc server share => 8 + server.length + tail_len share
  | .Namespaced _ name => 3 + tail_len name

def volume_name_len (path : Str) (regime : Regime) : ℕ := (Volume.parse path regime).len

/-! ### The cleaner -/

/-- What has been written, and how much of it stays. -/
structure Cleaning where
  out : Str
  dotdot : ℕ
  deriving DecidableEq, Repr

/-- Go back from a place to the last separator, or to the floor. -/
def popIndex (sep : Char) (st : Cleaning) : ℕ → ℕ
  | 0 => 0
  | w + 1 => if st.dotdot < w + 1 ∧ st.out[w + 1]? ≠ some sep then popIndex sep st w else w + 1

/-- Take the last element back. -/
def Cleaning.backUp (regime : Regime) (rooted : Bool) (volw : ℕ) (st : Cleaning) : Cleaning :=
  if st.dotdot < st.out.length then
    ⟨st.out.take (popIndex regime.separator st (st.out.length - 1)), st.dotdot⟩
  else if rooted then st
  else
    let out := (if volw < st.out.length then st.out ++ [regime.separator] else st.out) ++ ['.', '.']
    ⟨out, out.length⟩

/-- Write an element. -/
def Cleaning.append (regime : Regime) (rooted : Bool) (volw : ℕ) (st : Cleaning) (e : Str) :
    Cleaning :=
  if (rooted ∧ st.out.length ≠ st.dotdot) ∨ (rooted = false ∧ st.out.length ≠ volw) then
    ⟨st.out ++ [regime.separator] ++ e, st.dotdot⟩
  else ⟨st.out ++ e, st.dotdot⟩

/-- An element ends here. -/
def atEnd (regime : Regime) (rest : Str) : Bool := rest.head?.all fun c => is_sep c regime

/-- The loop over the text. A round reads a character at least, so that there are no more rounds
than characters. -/
def cleanLoop (regime : Regime) (rooted : Bool) (volw : ℕ) : ℕ → Str → Cleaning → Cleaning
  | 0, _, st => st
  | _ + 1, [], st => st
  | fuel + 1, c :: rest, st =>
    if is_sep c regime then cleanLoop regime rooted volw fuel rest st
    else if c = '.' ∧ atEnd regime rest then cleanLoop regime rooted volw fuel rest st
    else if c = '.' ∧ rest.head? = some '.' ∧ atEnd regime rest.tail then
      cleanLoop regime rooted volw fuel rest.tail (st.backUp regime rooted volw)
    else
      cleanLoop regime rooted volw fuel ((c :: rest).dropWhile fun c => !is_sep c regime)
        (st.append regime rooted volw ((c :: rest).takeWhile fun c => !is_sep c regime))

/-- The text after its volume. -/
def afterVolume (path : Str) (regime : Regime) : Str := path.drop (volume_name_len path regime)

/-- The text of the volume. -/
def volumeText (path : Str) (regime : Regime) : Str := path.take (volume_name_len path regime)

/-- There is a separator right after the volume. -/
def is_rooted (path : Str) (regime : Regime) : Bool :=
  (afterVolume path regime).head?.any fun c => is_sep c regime

def clean_with (path : Str) (regime : Regime) : Str :=
  if path = [] then ['.']
  else
    let volume := (volumeText path regime).map (normalise regime)
    let rooted := is_rooted path regime
    let out := if rooted then volume ++ [regime.separator] else volume
    let rest := if rooted then (afterVolume path regime).tail else afterVolume path regime
    let cleaned := cleanLoop regime rooted volume.length rest.length rest ⟨out, out.length⟩
    if cleaned.out = [] then ['.'] else cleaned.out

/-! ### From element to element -/

/-- Where an element leads. -/
def moveOf (e : Str) : Move Str :=
  if e = [] ∨ e = ['.'] then .stay else if e = ['.', '.'] then .up else .down e

/-- What a round does that reads an element. -/
def Cleaning.move (regime : Regime) (rooted : Bool) (volw : ℕ) (st : Cleaning) :
    Move Str → Cleaning
  | .stay => st
  | .up => st.backUp regime rooted volw
  | .down e => st.append regime rooted volw e

/-- The elements of a text. -/
def elementsOf (regime : Regime) (s : Str) : List Str := s.splitOnP fun c => is_sep c regime

theorem elementsOf_sep {regime : Regime} {c : Char} (hc : is_sep c regime = true) (s : Str) :
    elementsOf regime (c :: s) = [] :: elementsOf regime s :=
  Lib.Lexical.splitOnP_sep (p := fun c => is_sep c regime) hc s

theorem elementsOf_element {regime : Regime} {e : Str} (he : ∀ c ∈ e, is_sep c regime = false) {c : Char}
    (hc : is_sep c regime = true) (s : Str) :
    elementsOf regime (e ++ c :: s) = e :: elementsOf regime s :=
  List.splitOnP_append_cons_of_forall_mem he c hc s

/-- Read the elements of a text. -/
def Cleaning.read (regime : Regime) (rooted : Bool) (volw : ℕ) (st : Cleaning) (s : Str) :
    Cleaning := (elementsOf regime s).foldl (fun st e => st.move regime rooted volw (moveOf e)) st

section Loop

variable {regime : Regime} {rooted : Bool} {volw : ℕ}

theorem read_nil (st : Cleaning) : st.read regime rooted volw [] = st := rfl

/-- The first element is read first. -/
theorem read_element {e rest : Str} (he : ∀ c ∈ e, is_sep c regime = false)
    (hrest : atEnd regime rest = true) (st : Cleaning) :
    st.read regime rooted volw (e ++ rest) =
      (st.move regime rooted volw (moveOf e)).read regime rooted volw rest := by
  unfold Cleaning.read
  cases rest with
  | nil =>
    have hsingle : elementsOf regime e = [e] := List.splitOnP_eq_singleton he
    rw [List.append_nil, hsingle]
    rfl
  | cons c rest =>
    have hc : is_sep c regime = true := by simpa [atEnd] using hrest
    rw [elementsOf_element he hc, elementsOf_sep hc]
    rfl

theorem read_sep {c : Char} (hc : is_sep c regime = true) (rest : Str) (st : Cleaning) :
    st.read regime rooted volw (c :: rest) = st.read regime rooted volw rest := by
  unfold Cleaning.read
  rw [elementsOf_sep hc]
  rfl

theorem atEnd_dropWhile (s : Str) : atEnd regime (s.dropWhile fun c => !is_sep c regime) = true := by
  unfold atEnd
  have hhead := List.head?_dropWhile_not (fun c => !is_sep c regime) s
  cases hd : (s.dropWhile fun c => !is_sep c regime).head? with
  | none => rfl
  | some c =>
    rw [hd] at hhead
    simpa using hhead

/-- The loop reads the elements of the text. -/
theorem cleanLoop_eq {fuel : ℕ} {rest : Str} (hfuel : rest.length ≤ fuel) (st : Cleaning) :
    cleanLoop regime rooted volw fuel rest st = st.read regime rooted volw rest := by
  -- The fuel bounds the rest of the text, which every turn shortens.
  induction fuel generalizing rest st with
  | zero =>
    rw [List.length_eq_zero_iff.1 (Nat.le_zero.1 hfuel)]
    rfl
  | succ fuel ih =>
    cases rest with
    | nil => rfl
    | cons c rest =>
      have hlength : rest.length ≤ fuel := by simpa using hfuel
      unfold cleanLoop
      split_ifs with hsep hdot hdots
      · rw [ih hlength, read_sep hsep]
      · obtain ⟨rfl, hend⟩ := hdot
        have helement : st.read regime rooted volw (['.'] ++ rest) =
            (st.move regime rooted volw (moveOf ['.'])).read regime rooted volw rest :=
          read_element (by simp [is_sep_dot]) hend st
        rw [ih hlength, ← List.singleton_append, helement]
        rfl
      · obtain ⟨rfl, hhead, hend⟩ := hdots
        cases rest with
        | nil => cases hhead
        | cons d rest =>
          cases hhead
          rw [List.tail_cons] at hend
          have helement : st.read regime rooted volw (['.', '.'] ++ rest) =
              (st.move regime rooted volw (moveOf ['.', '.'])).read regime rooted volw rest :=
            read_element (by simp [is_sep_dot]) hend st
          have hlength' : rest.length ≤ fuel := by
            rw [List.length_cons] at hlength
            omega
          rw [List.tail_cons, ih hlength', show '.' :: '.' :: rest = ['.', '.'] ++ rest from rfl, helement]
          rfl
      · -- The element starts with `c`, and it is none of the elements of dots.
        have hc : (!is_sep c regime) = true := by simpa using hsep
        set tail := rest.dropWhile fun c => !is_sep c regime with htail
        set name := rest.takeWhile fun c => !is_sep c regime with hname
        have hcut : rest = name ++ tail := (List.takeWhile_append_dropWhile).symm
        have hend : atEnd regime tail = true := atEnd_dropWhile rest
        have hsuffix : tail.length ≤ rest.length := by
          rw [hcut, List.length_append]
          omega
        have hmem : ∀ d ∈ c :: name, is_sep d regime = false := by
          refine List.forall_mem_cons.2 ⟨by simpa using hc, fun d hd => ?_⟩
          simpa using List.mem_takeWhile_imp hd
        have hone : c :: name ≠ ['.'] := by
          intro heq
          obtain ⟨rfl, hname'⟩ := List.cons_eq_cons.1 heq
          refine hdot ⟨rfl, ?_⟩
          rw [hcut, hname']
          exact hend
        have htwo : c :: name ≠ ['.', '.'] := by
          intro heq
          obtain ⟨rfl, hname'⟩ := List.cons_eq_cons.1 heq
          refine hdots ⟨rfl, ?_, ?_⟩
          · rw [hcut, hname']
            rfl
          · rw [hcut, hname']
            exact hend
        have hmove : moveOf (c :: name) = .down (c :: name) := by
          unfold moveOf
          rw [if_neg (by simpa using hone), if_neg htwo]
        have htake : ((c :: rest).takeWhile fun c => !is_sep c regime) = c :: name := by
          rw [List.takeWhile_cons, if_pos hc]
        have hdrop : ((c :: rest).dropWhile fun c => !is_sep c regime) = tail := by
          rw [List.dropWhile_cons, if_pos hc]
        rw [htake, hdrop, ih (hsuffix.trans hlength)]
        conv_rhs => rw [hcut, ← List.cons_append, read_element hmem hend, hmove]
        rfl

end Loop

end IpeLang.Runtime.PathCore
