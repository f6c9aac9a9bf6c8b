import IpeLang.Parse.Token

/-!
# The leaves of what is written

The names, the literals, the wildcards and the empty groups of a list of tokens, in their order.
`written` is what a tree of these tokens should have as its leaves. A literal is its value: the
sign belongs to an integer, and the margin does not belong to a string of several lines.
-/

namespace IpeLang.Parse

open Lib (Str)

inductive Leaf
  | name (text : Str)
  | int (value : ℤ)
  | float (lexeme : Str)
  | str (value : Str)
  | char (value : Str)
  | wildcard
  | unit
  | emptyRecord
  | emptyList
  deriving DecidableEq, Repr

/-- The lines of a text, each with its end. -/
def splitInclusive : Str → List Str
  | [] => []
  | c :: s =>
    if c = '\n' then ['\n'] :: splitInclusive s
    else
      match splitInclusive s with
      | [] => [[c]]
      | line :: lines => (c :: line) :: lines

/-- A line without the white space of its margin. -/
def stripLine (strip : ℕ) (line : Str) : Str :=
  line.drop ((line.take strip).takeWhile fun c => c == ' ' || c == '\t').length

/-- The value of a string of several lines, whose content starts at a column. -/
def strip_anchor_margin (raw : Str) (anchor : ℕ) : Str :=
  let out :=
    match splitInclusive raw with
    | [] => []
    | first :: rest => first ++ (rest.map (stripLine (anchor - 1))).flatten
  if ['\r', '\n'].isPrefixOf out then out.drop 2
  else if ['\n'].isPrefixOf out then out.drop 1
  else out

/-- The leaf of a single token. -/
def Tok.leaf : Tok → List Leaf
  | .Ident text => [.name text]
  | .Int n => [.int n.val]
  | .Float lexeme => [.float lexeme]
  | .Str value => [.str value]
  | .TripleStr raw anchor => [.str (strip_anchor_margin raw anchor)]
  | .Char value => [.char value]
  | .Underscore => [.wildcard]
  | _ => []

/-- The leaf of two tokens that stand for one. -/
def pairLeaf : Tok → Tok → Option Leaf
  | .LParen, .RParen => some .unit
  | .LBrace, .RBrace => some .emptyRecord
  | .LBracket, .RBracket => some .emptyList
  | .Minus, .Int n => some (.int (-(n.val : ℤ)))
  | _, _ => none

/-- The leaves of some tokens. -/
def written : List Tok → List Leaf
  | [] => []
  | [t] => t.leaf
  | t :: u :: toks =>
    match pairLeaf t u with
    | some leaf => leaf :: written toks
    | none => t.leaf ++ written (u :: toks)

@[simp] theorem written_nil : written [] = [] := rfl

theorem written_pair {t u : Tok} {leaf : Leaf} (h : pairLeaf t u = some leaf) (toks : List Tok) :
    written (t :: u :: toks) = leaf :: written toks := by
  rw [written, h]

theorem written_cons {t : Tok} {toks : List Tok} (h : ∀ u ∈ toks.head?, pairLeaf t u = none) :
    written (t :: toks) = t.leaf ++ written toks := by
  cases toks with
  | nil => simp [written]
  | cons u toks => rw [written, h u rfl]

/-- A token that never is the first one of a pair. -/
theorem written_single {t : Tok} (h : ∀ u, pairLeaf t u = none) (toks : List Tok) :
    written (t :: toks) = t.leaf ++ written toks := written_cons fun u _ => h u

@[simp] theorem written_ident (text : Str) (toks : List Tok) :
    written (.Ident text :: toks) = .name text :: written toks := written_single (fun _ => rfl) toks

/-- A token that has no leaf and makes no pair. -/
theorem written_skip {t : Tok} (hpair : ∀ u, pairLeaf t u = none) (hleaf : t.leaf = [])
    (toks : List Tok) : written (t :: toks) = written toks := by
  rw [written_single hpair, hleaf, List.nil_append]

/-! ### Lost leaves -/

/-- How the leaves of a tree are fewer than those of its syntax. -/
def Fewer (inTree inSyntax : List Leaf) (lost : Bool) : Prop :=
  inTree.length ≤ inSyntax.length ∧ (lost = true → inTree.length < inSyntax.length)

theorem Fewer.append {a a' b b' : List Leaf} {l l' : Bool} (h : Fewer a a' l) (h' : Fewer b b' l') :
    Fewer (a ++ b) (a' ++ b') (l || l') := by
  obtain ⟨hle, hlt⟩ := h
  obtain ⟨hle', hlt'⟩ := h'
  unfold Fewer
  rw [List.length_append, List.length_append]
  refine ⟨by omega, fun hlost => ?_⟩
  rcases (Bool.or_eq_true _ _).mp hlost with hl | hl
  · have := hlt hl
    omega
  · have := hlt' hl
    omega

theorem Fewer.cons {a a' : List Leaf} {l : Bool} (h : Fewer a a' l) (x : Leaf) :
    Fewer (x :: a) (x :: a') l := by
  refine ⟨Nat.succ_le_succ h.1, fun hl => Nat.succ_lt_succ (h.2 hl)⟩

theorem Fewer.snoc_nil {a a' : List Leaf} {l : Bool} (h : Fewer a a' l) : Fewer (a ++ []) a' l := by
  rwa [List.append_nil]

theorem fewer_refl (a : List Leaf) : Fewer a a false := ⟨le_rfl, fun h => (Bool.noConfusion h)⟩

theorem Fewer.concat {a a' : List Leaf} {l : Bool} (h : Fewer a a' l) (x : Leaf) :
    Fewer (a ++ [x]) (a' ++ [x]) l := by
  have happend := h.append (fewer_refl [x])
  rwa [Bool.or_false] at happend

/-- The arguments of a head are replaced by others: what it had is lost. -/
theorem fewer_replace {leaf : Leaf} {old head args args' : List Leaf} {b l l' : Bool}
    (hhead : Fewer (leaf :: old) head l) (hargs : Fewer args args' l') (hold : b = true → old ≠ []) :
    Fewer (leaf :: args) (head ++ args') (b || l || l') := by
  obtain ⟨hle, hlt⟩ := hhead
  obtain ⟨hle', hlt'⟩ := hargs
  simp only [List.length_cons] at hle hlt
  unfold Fewer
  simp only [List.length_cons, List.length_append]
  refine ⟨by omega, fun hlost => ?_⟩
  rcases (Bool.or_eq_true _ _).mp hlost with hl | hl
  · rcases (Bool.or_eq_true _ _).mp hl with hl | hl
    · have hpos := List.length_pos_iff.2 (hold hl)
      omega
    · have := hlt hl
      omega
  · have := hlt' hl
    omega

end IpeLang.Parse
