import IpeLang.Parse.Leaf

/-!
# The parser of patterns

`parse_pattern` and what it calls, from `parser.rs`, on the patterns of `ast.rs`. Positions are left
out of the tree, and symbols are their texts.
-/

namespace IpeLang.Parse

open Lib (Str Run)

/-- A written pattern. -/
inductive Pattern_
  | PAnything
  | PDebugAnything
  | PVar (name : Str)
  | PCtor (name : Str) (mods : List Str) (subs : List Pattern_)
  | PUnit
  | PTuple (elems : List Pattern_)
  | PRecord (fields : List Str)
  | PInt (value : ℤ)
  | PBool (value : Bool)
  | PChar (value : Str)
  | PStr (value : Str)
  | PAlias (inner : Pattern_) (name : Str)
  | PList (elems : List Pattern_)
  | PCons (head tail : Pattern_)
  | POr (alts : List Pattern_)

/-- The pattern that a name stands for. -/
def namePattern (text : Str) : Pattern_ :=
  if text = "True".toList then .PBool true
  else if text = "False".toList then .PBool false
  else if text = "Debug._".toList then .PDebugAnything
  else if first_upper text then .PCtor text [] []
  else .PVar text

/-- A name of a pattern. Of the names with a dot there is one only. -/
def ident_pattern (text : Str) : ParseM Pattern_ :=
  if text.contains '.' ∧ text ≠ "Debug._".toList then
    fail (.UnexpectedToken (.Ident text) (if first_upper text then [.Constructor] else [.Identifier]))
  else .ok (namePattern text)

/-- A token that starts an atom of a pattern. -/
def peek_is_pattern_atom_start (tok : Token) : Bool :=
  match tok.kind with
  | .Underscore | .LParen | .LBrace | .LBracket | .Ident _ | .Int _ | .Str _ | .TripleStr _ _
  | .Char _ | .Minus => true
  | _ => false

def isCtor : Pattern_ → Bool
  | .PCtor _ _ _ => true
  | _ => false

/-- A constructor with arguments. Those that it has are replaced. -/
def withSubs (head : Pattern_) (subs : List Pattern_) : Pattern_ :=
  match head, subs with
  | head, [] => head
  | .PCtor name mods _, p :: subs => .PCtor name mods (p :: subs)
  | head, _ => head

/-- A name that can be bound. -/
def parse_lower_name (toks : List Token) : ParseM (Str × List Token) := do
  let (tok, toks) ← bump .Pattern toks
  match tok.kind with
  | .Ident text =>
    if text.head?.any Char.isLower && !text.contains '.' then .ok (text, toks)
    else fail (.UnexpectedToken tok.kind [.Identifier])
  | kind => fail (.UnexpectedToken kind [.Identifier])

/-- The integer right after a minus. -/
def parse_neg_pattern (minus : Token) (toks : List Token) : ParseM (Pattern_ × List Token) :=
  match toks with
  | tok :: rest =>
    match tok.kind with
    | .Int n =>
      if tok.span.lo = minus.span.hi then .ok (.PInt n.negated, rest)
      else fail (.UnexpectedToken tok.kind [.Pattern])
    | kind => fail (.UnexpectedToken kind [.Pattern])
  | [] => fail (.UnexpectedToken minus.kind [.Pattern])

/-- A record pattern, the brace already read. -/
def parse_record_pattern (toks : List Token) : ParseM (Pattern_ × List Token) :=
  if peek_kind toks = some .RBrace then fail (.UnexpectedToken .RBrace [.Identifier])
  else do
    let (field, toks) ← parse_record_field_name toks
    let (fields, toks) ← manyAfter .Comma .Pattern parse_record_field_name toks
    let toks ← expect_record_close toks
    .ok (.PRecord (field :: fields), toks)

/-- A group or a tuple, the parenthesis already read. -/
def parse_paren_pattern (pattern : List Token → ParseM (Pattern_ × List Token)) (opener : Span)
    (toks : List Token) : ParseM (Pattern_ × List Token) :=
  if peek_kind toks = some .RParen then do
    let toks ← expect_rparen opener toks
    .ok (.PUnit, toks)
  else do
    let (inner, toks) ← pattern toks
    if peek_kind toks = some .Comma then do
      let (elems, toks) ← manyAfter .Comma .Pattern pattern toks
      let toks ← expect_rparen opener toks
      .ok (.PTuple (inner :: elems), toks)
    else do
      let toks ← expect_rparen opener toks
      .ok (inner, toks)

/-- A list pattern, the bracket already read. -/
def parse_list_body (pattern : List Token → ParseM (Pattern_ × List Token)) (opener : Span)
    (toks : List Token) : ParseM (Pattern_ × List Token) :=
  if peek_kind toks = some .RBracket then do
    let (_, toks) ← bump .Pattern toks
    .ok (.PList [], toks)
  else do
    let (first, toks) ← pattern toks
    let (elems, toks) ← manyAfter .Comma .Pattern pattern toks
    let toks ← expect_rbracket opener toks
    .ok (.PList (first :: elems), toks)

/-- The arguments of a head, if it is a constructor. -/
def parse_subs (atom : List Token → ParseM (Pattern_ × List Token)) (head : Pattern_)
    (toks : List Token) : ParseM (Pattern_ × List Token) :=
  if isCtor head then do
    let (sub, toks) ← many peek_is_pattern_atom_start atom toks
    .ok (withSubs head sub, toks)
  else .ok (head, toks)

/-- The tail of a list after its head, if there is one. -/
def parse_tail (cons_as : List Token → ParseM (Pattern_ × List Token)) (pat : Pattern_)
    (toks : List Token) : ParseM (Pattern_ × List Token) :=
  if peek_kind toks = some .ColonColon then do
    let (_, toks) ← bump .Pattern toks
    let (tail, toks) ← cons_as toks
    .ok (.PCons pat tail, toks)
  else .ok (pat, toks)

/-- The alias of a pattern, if there is one. -/
def parse_alias (pat : Pattern_) (toks : List Token) : ParseM (Pattern_ × List Token) :=
  if peek_kind toks = some .As then do
    let (_, toks) ← bump .Pattern toks
    let (name, toks) ← parse_lower_name toks
    .ok (.PAlias pat name, toks)
  else .ok (pat, toks)

mutual

def parse_pattern : (levels : ℕ) → List Token → ParseM (Pattern_ × List Token)
  | 0, _ => too_deep .Pattern
  | levels + 1, toks => do
    let (first, toks) ← parse_cons_as levels toks
    if peek_kind toks ≠ some .Pipe then .ok (first, toks)
    else do
      let (alts, toks) ← manyAfter .Pipe .Pattern (parse_cons_as levels) toks
      .ok (.POr (first :: alts), toks)

def parse_cons_as : (levels : ℕ) → List Token → ParseM (Pattern_ × List Token)
  | 0, _ => too_deep .Pattern
  | levels + 1, toks => do
    let (head, toks) ← parse_pattern_atom levels toks
    let (pat, toks) ← parse_subs (parse_pattern_atom levels) head toks
    let (pat, toks) ← parse_tail (parse_cons_as levels) pat toks
    parse_alias pat toks

def parse_pattern_atom : (levels : ℕ) → List Token → ParseM (Pattern_ × List Token)
  | 0, _ => too_deep .Pattern
  | levels + 1, toks => do
    let (tok, toks) ← bump .Pattern toks
    match tok.kind with
    | .Underscore => .ok (.PAnything, toks)
    | .Int n =>
      match n.positive with
      | some value => .ok (.PInt value, toks)
      | none => fail .IntLiteralOutOfRange
    | .Str value => .ok (.PStr value, toks)
    | .TripleStr raw anchor => .ok (.PStr (strip_anchor_margin raw anchor), toks)
    | .Char value => .ok (.PChar value, toks)
    | .Minus => parse_neg_pattern tok toks
    | .LParen => parse_paren_pattern (parse_pattern levels) tok.span toks
    | .LBrace => parse_record_pattern toks
    | .LBracket => parse_list_pattern levels tok.span toks
    | .Ident text => do
      let pat ← ident_pattern text
      .ok (pat, toks)
    | kind => fail (.UnexpectedToken kind [.Pattern])

def parse_list_pattern : (levels : ℕ) → Span → List Token → ParseM (Pattern_ × List Token)
  | 0, _, _ => too_deep .Pattern
  | levels + 1, opener, toks => parse_list_body (parse_pattern levels) opener toks

end

end IpeLang.Parse
