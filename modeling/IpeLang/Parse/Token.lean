import IpeLang.Lib.Loop
import IpeLang.Lib.Text

/-!
# Tokens and the cursor of the parser

The tokens that types and patterns are made of, the errors of the parser and the operations on its
cursor, from `lexer.rs` and `parser.rs` of the parser of the compiler. The cursor is the list of
the tokens that are left. A nesting is bounded: where the source counts a `depth` up to
`MAX_DEPTH`, the functions here count the levels that are left down.

* `repeatWhile`: a loop that reads items as long as a token is there that starts one;
* `repeatWhile_ended`: such a loop ends.
-/

namespace IpeLang.Parse

open Lib (Str Run Stop)

/-! ### Tokens -/

/-- The magnitude of an integer literal, before its sign is known. -/
structure IntMagnitude where
  val : ℕ
  le_limit : val ≤ 2 ^ 63
  deriving DecidableEq, Repr

/-- The value without a sign: there is none for `2 ^ 63`. -/
def IntMagnitude.positive (n : IntMagnitude) : Option ℤ := if n.val < 2 ^ 63 then some n.val else none

/-- The value under a minus, which saturates. -/
def IntMagnitude.negated (n : IntMagnitude) : ℤ := max (-(n.val : ℤ)) (-2 ^ 63)

theorem IntMagnitude.negated_eq (n : IntMagnitude) : n.negated = -(n.val : ℤ) := by
  have hle : (n.val : ℤ) ≤ 2 ^ 63 := by exact_mod_cast n.le_limit
  exact max_eq_left (neg_le_neg hle)

/-- The kinds of tokens. Those that stand in no type and no pattern are `Other`. -/
inductive Tok
  | As
  | LParen
  | RParen
  | LBrace
  | RBrace
  | LBracket
  | RBracket
  | ColonColon
  | Pipe
  | Colon
  | Arrow
  | Comma
  | Underscore
  | Minus
  | Ident (text : Str)
  | Int (magnitude : IntMagnitude)
  | Float (lexeme : Str)
  | Str (value : Str)
  | TripleStr (raw : Str) (anchor : ℕ)
  | Char (value : Str)
  | Other (kind : ℕ)
  deriving DecidableEq, Repr

/-- A range of bytes of the source. -/
structure Span where
  lo : ℕ
  hi : ℕ
  deriving DecidableEq, Repr

structure Token where
  kind : Tok
  line : ℕ
  col : ℕ
  span : Span
  deriving DecidableEq, Repr

def kinds (toks : List Token) : List Tok := toks.map Token.kind

@[simp] theorem kinds_nil : kinds [] = [] := rfl

@[simp] theorem kinds_cons (t : Token) (toks : List Token) :
    kinds (t :: toks) = t.kind :: kinds toks := rfl

@[simp] theorem kinds_append (l r : List Token) : kinds (l ++ r) = kinds l ++ kinds r :=
  List.map_append

/-- A token continues a block if its column is beyond the block's threshold. -/
def continues_block (tok : Token) (threshold : ℕ) : Bool := threshold < tok.col

/-! ### Errors -/

/-- What is being parsed. -/
inductive Construct
  | Type
  | Pattern
  | Record
  | Expression
  deriving DecidableEq, Repr

/-- What could have stood where something else does. -/
inductive Expected
  | Identifier
  | Pattern
  | Constructor
  | Comma
  | RBrace
  | Colon
  deriving DecidableEq, Repr

inductive ParseError
  | UnexpectedToken (found : Tok) (expected : List Expected)
  | UnexpectedEof (construct : Construct)
  | NestingTooDeep (construct : Construct)
  | UnclosedDelimiter (opener : Span)
  | TypeArgsOnNonConstructor
  | ExpectedType
  | IntLiteralOutOfRange
  deriving DecidableEq, Repr

/-- The outcome of a part of the parser. A part gives a value and the tokens that are left. -/
abbrev ParseM := Run ParseError

/-- The deepest nesting. -/
def MAX_DEPTH : ℕ := 256

def fail {α : Type} (e : ParseError) : ParseM α := Run.fail e

def too_deep {α : Type} (construct : Construct) : ParseM α := fail (.NestingTooDeep construct)

/-! ### The cursor -/

def peek_kind (toks : List Token) : Option Tok := toks.head?.map Token.kind

/-- Read a token. -/
def bump (construct : Construct) : List Token → ParseM (Token × List Token)
  | [] => fail (.UnexpectedEof construct)
  | t :: toks => .ok (t, toks)

/-- Read a token of a kind that closes what `opener` opens. -/
def expect_close (close : Tok) (opener : Span) : List Token → ParseM (List Token)
  | [] => fail (.UnclosedDelimiter opener)
  | t :: toks => if t.kind = close then .ok toks else fail (.UnclosedDelimiter opener)

def expect_rparen (opener : Span) (toks : List Token) : ParseM (List Token) :=
  expect_close .RParen opener toks

def expect_rbracket (opener : Span) (toks : List Token) : ParseM (List Token) :=
  expect_close .RBracket opener toks

def expect_record_close : List Token → ParseM (List Token)
  | [] => fail (.UnexpectedEof .Record)
  | t :: toks =>
    if t.kind = .RBrace then .ok toks else fail (.UnexpectedToken t.kind [.Comma, .RBrace])

def expect_field_colon : List Token → ParseM (List Token)
  | [] => fail (.UnexpectedEof .Record)
  | t :: toks => if t.kind = .Colon then .ok toks else fail (.UnexpectedToken t.kind [.Colon])

/-- The first character of a name is a capital letter. -/
def first_upper (text : Str) : Bool := text.head?.any Char.isUpper

/-- The name of a field of a record. -/
def parse_record_field_name (toks : List Token) : ParseM (Str × List Token) := do
  let (tok, toks) ← bump .Record toks
  match tok.kind with
  | .Ident text =>
    if text.contains '.' || first_upper text then fail (.UnexpectedToken tok.kind [.Identifier])
    else .ok (text, toks)
  | kind => fail (.UnexpectedToken kind [.Identifier])

/-- Read items as long as there is a token that starts one. An item has a token, so that there are
no more of them than tokens. -/
def repeatWhile {α : Type} (more : Token → Bool) (item : List Token → ParseM (α × List Token)) :
    ℕ → List Token → ParseM (List α × List Token)
  | 0, toks => if toks.head?.any more then Run.outOfFuel else .ok ([], toks)
  | fuel + 1, toks =>
    if toks.head?.any more then do
      let (a, toks) ← item toks
      let (as, toks) ← repeatWhile more item fuel toks
      .ok (a :: as, toks)
    else .ok ([], toks)

/-- All items at the start of the tokens. -/
def many {α : Type} (more : Token → Bool) (item : List Token → ParseM (α × List Token)) (toks : List Token) :
    ParseM (List α × List Token) := repeatWhile more item toks.length toks

/-- Further items, each after a separator. -/
def manyAfter {α : Type} (separator : Tok) (construct : Construct) (item : List Token → ParseM (α × List Token))
    (toks : List Token) : ParseM (List α × List Token) :=
  many (fun t => t.kind == separator) (fun toks => do
    let (_, toks) ← bump construct toks
    item toks) toks

/-! ### What is read -/

/-- A part of the parser reads a token at least, and ends. -/
structure Reads {α : Type} (item : List Token → ParseM (α × List Token)) : Prop where
  ended : ∀ toks, (item toks).Ended
  shorter : ∀ toks a rest, item toks = .ok (a, rest) → rest.length < toks.length

/-- A loop over items ends, as they are never more than tokens. -/
theorem repeatWhile_ended {α : Type} {more : Token → Bool}
    {item : List Token → ParseM (α × List Token)} (h : Reads item) {fuel : ℕ} {toks : List Token}
    (hfuel : toks.length ≤ fuel) : (repeatWhile more item fuel toks).Ended := by
  induction fuel generalizing toks with
  | zero =>
    have hnil : toks = [] := List.length_eq_zero_iff.1 (Nat.le_zero.1 hfuel)
    subst hnil
    simp [repeatWhile, Run.Ended]
  | succ fuel ih =>
    unfold repeatWhile
    split_ifs
    · refine Run.ended_bind (h.ended toks) ?_
      rintro ⟨a, rest⟩ hitem
      have hlt := h.shorter toks a rest hitem
      refine Run.ended_bind (ih (by omega)) ?_
      rintro ⟨as, rest'⟩ -
      simp [Run.Ended]
    · simp [Run.Ended]

theorem many_ended {α : Type} {more : Token → Bool} {item : List Token → ParseM (α × List Token)}
    (h : Reads item) (toks : List Token) : (many more item toks).Ended :=
  repeatWhile_ended h le_rfl

/-- What a loop has read: its items one after the other. -/
theorem repeatWhile_induction {α : Type} {more : Token → Bool}
    {item : List Token → ParseM (α × List Token)} {P : List Token → List α → List Token → Prop}
    (hnil : ∀ toks, toks.head?.any more = false → P toks [] toks)
    (hcons : ∀ toks a rest as rest', toks.head?.any more = true → item toks = .ok (a, rest) →
      P rest as rest' → P toks (a :: as) rest')
    {fuel : ℕ} {toks rest : List Token} {as : List α}
    (h : repeatWhile more item fuel toks = .ok (as, rest)) : P toks as rest := by
  induction fuel generalizing toks as with
  | zero =>
    unfold repeatWhile at h
    split_ifs at h with hmore
    · simp [Run.outOfFuel] at h
    · cases h
      exact hnil _ (by simpa using hmore)
  | succ fuel ih =>
    unfold repeatWhile at h
    split_ifs at h with hmore
    · obtain ⟨⟨a, toks'⟩, hitem, h⟩ := Run.bind_eq_ok.1 h
      obtain ⟨⟨as', rest'⟩, hrest, h⟩ := Run.bind_eq_ok.1 h
      cases h
      exact hcons _ _ _ _ _ hmore hitem (ih hrest)
    · cases h
      exact hnil _ (by simpa using hmore)

/-! ### Single tokens -/

theorem peek_kind_eq_some {toks : List Token} {kind : Tok} :
    peek_kind toks = some kind ↔ ∃ tok rest, toks = tok :: rest ∧ tok.kind = kind := by
  cases toks with
  | nil => simp [peek_kind]
  | cons tok rest => simp [peek_kind]

theorem bump_eq_ok {construct : Construct} {toks rest : List Token} {tok : Token} :
    bump construct toks = .ok (tok, rest) ↔ toks = tok :: rest := by
  cases toks with
  | nil => simp [bump, fail, Run.fail]
  | cons t toks => simp [bump]

theorem expect_close_eq_ok {close : Tok} {opener : Span} {toks rest : List Token} :
    expect_close close opener toks = .ok rest ↔ ∃ tok, toks = tok :: rest ∧ tok.kind = close := by
  cases toks with
  | nil => simp [expect_close, fail, Run.fail]
  | cons t toks =>
    unfold expect_close
    dsimp only
    split_ifs with h
    · constructor
      · rintro ⟨⟩
        exact ⟨t, rfl, h⟩
      · rintro ⟨tok, heq, -⟩
        rw [(List.cons_eq_cons.1 heq).2]
    · constructor
      · rintro ⟨⟩
      · rintro ⟨tok, heq, hkind⟩
        exact absurd ((List.cons_eq_cons.1 heq).1 ▸ hkind) h

theorem expect_record_close_eq_ok {toks rest : List Token}
    (h : expect_record_close toks = .ok rest) : ∃ tok, toks = tok :: rest ∧ tok.kind = .RBrace := by
  cases toks with
  | nil => cases h
  | cons t toks =>
    unfold expect_record_close at h
    dsimp only at h
    split_ifs at h with hkind
    · cases h
      exact ⟨t, rfl, hkind⟩
    · cases h

theorem expect_field_colon_eq_ok {toks rest : List Token}
    (h : expect_field_colon toks = .ok rest) : ∃ tok, toks = tok :: rest ∧ tok.kind = .Colon := by
  cases toks with
  | nil => cases h
  | cons t toks =>
    unfold expect_field_colon at h
    dsimp only at h
    split_ifs at h with hkind
    · cases h
      exact ⟨t, rfl, hkind⟩
    · cases h

theorem parse_record_field_name_eq_ok {toks rest : List Token} {label : Str}
    (h : parse_record_field_name toks = .ok (label, rest)) :
    ∃ tok, toks = tok :: rest ∧ tok.kind = .Ident label := by
  unfold parse_record_field_name at h
  obtain ⟨⟨tok, toks'⟩, hbump, h⟩ := Run.bind_eq_ok.1 h
  rw [bump_eq_ok] at hbump
  dsimp only at h
  split at h
  · next text hkind =>
    split_ifs at h
    · cases h
    · cases h
      exact ⟨tok, hbump, hkind⟩
  · cases h

/-- What a loop over items after separators has read. -/
theorem manyAfter_induction {α : Type} {separator : Tok} {construct : Construct}
    {item : List Token → ParseM (α × List Token)} (P : List Token → List α → List Token → Prop)
    (hnil : ∀ toks, peek_kind toks ≠ some separator → P toks [] toks)
    (hcons : ∀ sep toks a rest as rest', sep.kind = separator → item toks = .ok (a, rest) →
      P rest as rest' → P (sep :: toks) (a :: as) rest')
    {toks rest : List Token} {as : List α}
    (h : manyAfter separator construct item toks = .ok (as, rest)) : P toks as rest := by
  refine repeatWhile_induction ?_ ?_ h
  · intro toks hmore
    refine hnil toks fun hpeek => ?_
    obtain ⟨tok, rest, rfl, hkind⟩ := peek_kind_eq_some.1 hpeek
    simp [hkind] at hmore
  · intro toks a rest as rest' hmore hitem hrest
    obtain ⟨⟨sep, toks'⟩, hbump, hitem⟩ := Run.bind_eq_ok.1 hitem
    rw [bump_eq_ok] at hbump
    subst hbump
    exact hcons sep toks' a rest as rest' (by simpa using hmore) hitem hrest

/-! ### The parts end -/

theorem fail_ended {α : Type} (e : ParseError) : (fail e : ParseM α).Ended := by
  simp [fail, Run.fail, Run.Ended]

theorem ok_ended {α : Type} (a : α) : Run.Ended (.ok a : ParseM α) := Run.ended_of_ok rfl

theorem bump_ended (construct : Construct) (toks : List Token) : (bump construct toks).Ended := by
  cases toks with
  | nil => exact fail_ended _
  | cons t toks => exact ok_ended _

theorem expect_close_ended (close : Tok) (opener : Span) (toks : List Token) :
    (expect_close close opener toks).Ended := by
  cases toks with
  | nil => exact fail_ended _
  | cons t toks =>
    unfold expect_close
    dsimp only
    split_ifs
    · exact ok_ended _
    · exact fail_ended _

theorem expect_record_close_ended (toks : List Token) : (expect_record_close toks).Ended := by
  cases toks with
  | nil => exact fail_ended _
  | cons t toks =>
    unfold expect_record_close
    dsimp only
    split_ifs
    · exact ok_ended _
    · exact fail_ended _

theorem expect_field_colon_ended (toks : List Token) : (expect_field_colon toks).Ended := by
  cases toks with
  | nil => exact fail_ended _
  | cons t toks =>
    unfold expect_field_colon
    dsimp only
    split_ifs
    · exact ok_ended _
    · exact fail_ended _

theorem parse_record_field_name_ended (toks : List Token) :
    (parse_record_field_name toks).Ended := by
  refine Run.ended_bind (bump_ended _ _) ?_
  rintro ⟨tok, toks⟩ -
  dsimp only
  split
  · split_ifs
    · exact fail_ended _
    · exact ok_ended _
  · exact fail_ended _

/-- A loop over items after separators ends. -/
theorem manyAfter_ended {α : Type} {separator : Tok} {construct : Construct}
    {item : List Token → ParseM (α × List Token)} (h : Reads item) (toks : List Token) :
    (manyAfter separator construct item toks).Ended := by
  refine many_ended ⟨fun toks => ?_, fun toks a rest hitem => ?_⟩ toks
  · refine Run.ended_bind (bump_ended _ _) ?_
    rintro ⟨tok, toks⟩ -
    exact h.ended toks
  · obtain ⟨⟨tok, toks'⟩, hbump, hitem⟩ := Run.bind_eq_ok.1 hitem
    rw [bump_eq_ok] at hbump
    have hlt := h.shorter toks' a rest hitem
    rw [hbump, List.length_cons]
    omega

end IpeLang.Parse
