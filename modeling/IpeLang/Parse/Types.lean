import IpeLang.Parse.Token

/-!
# The parser of types

`parse_type_standalone` and what it calls, from `parser.rs`, on the type annotations of `ast.rs`.
Positions are left out of the tree, and symbols are their texts.
-/

namespace IpeLang.Parse

open Lib (Str Run Stop)

/-- A written type: the `TypeAnnotation` of the source. -/
inductive TypeAnn
  | TLambda (dom cod : TypeAnn)
  | TVar (name : Str)
  | TType (qualifier : Str) (segs : List Str) (args : List TypeAnn)
  | TUnit
  | TTuple (elems : List TypeAnn)
  | TRecord (fields : List (Str × TypeAnn))
  | TRecordOpen (row_var : Str) (fields : List (Str × TypeAnn))

/-- The text before the last dot, and the one after it. -/
def splitLastDot (text : Str) : Str × Str :=
  ((text.rdropWhile (· != '.')).dropLast, text.rtakeWhile (· != '.'))

/-- The type that a name stands for. -/
def nameType (text : Str) : TypeAnn :=
  if first_upper text then
    if text.contains '.' then .TType (splitLastDot text).1 [(splitLastDot text).2] []
    else .TType [] [text] []
  else .TVar text

/-- An atom of a type starts here, in the block. -/
def peek_is_type_atom_in_block (threshold : ℕ) (tok : Token) : Bool :=
  continues_block tok threshold &&
    match tok.kind with
    | .LParen | .LBrace | .Ident _ => true
    | _ => false

/-- An arrow is next, in the block. -/
def arrow_in_block (threshold : ℕ) (toks : List Token) : Bool :=
  toks.head?.any fun t => t.kind == .Arrow && continues_block t threshold

/-- A record with a row variable is next: a name and a bar. -/
def peek_is_open_record_intro (toks : List Token) : Bool :=
  match peek_kind toks with
  | some (.Ident text) =>
    !text.contains '.' && !text.isEmpty && !first_upper text && peek_kind toks.tail == some .Pipe
  | _ => false

/-- Give a type its arguments. -/
def applyType (head : TypeAnn) (args : List TypeAnn) : ParseM TypeAnn :=
  if args.isEmpty then .ok head
  else
    match head with
    | .TType q segs _ => .ok (.TType q segs args)
    | _ => fail .TypeArgsOnNonConstructor

/-- A field of a record type. -/
def parse_field (type : List Token → ParseM (TypeAnn × List Token)) (toks : List Token) :
    ParseM ((Str × TypeAnn) × List Token) := do
  let (name, toks) ← parse_record_field_name toks
  let toks ← expect_field_colon toks
  let (ty, toks) ← type toks
  .ok ((name, ty), toks)

/-- The fields of a record type, one at least. -/
def parse_record_type_fields (type : List Token → ParseM (TypeAnn × List Token))
    (toks : List Token) : ParseM (List (Str × TypeAnn) × List Token) := do
  let (field, toks) ← parse_field type toks
  let (fields, toks) ← manyAfter .Comma .Type (parse_field type) toks
  .ok (field :: fields, toks)

/-- A record type, the brace already read. -/
def parse_record_type_body (type : List Token → ParseM (TypeAnn × List Token))
    (toks : List Token) : ParseM (TypeAnn × List Token) :=
  if peek_kind toks = some .RBrace then do
    let (_, toks) ← bump .Type toks
    .ok (.TRecord [], toks)
  else if peek_is_open_record_intro toks then do
    let (row_var, toks) ← parse_record_field_name toks
    let (_, toks) ← bump .Type toks
    let (fields, toks) ← parse_record_type_fields type toks
    let toks ← expect_record_close toks
    .ok (.TRecordOpen row_var fields, toks)
  else do
    let (fields, toks) ← parse_record_type_fields type toks
    let toks ← expect_record_close toks
    .ok (.TRecord fields, toks)

/-- A group or a tuple, the parenthesis already read. -/
def parse_paren_type (type : List Token → ParseM (TypeAnn × List Token)) (opener : Span)
    (toks : List Token) : ParseM (TypeAnn × List Token) :=
  if peek_kind toks = some .RParen then do
    let toks ← expect_rparen opener toks
    .ok (.TUnit, toks)
  else do
    let (first, toks) ← type toks
    if peek_kind toks ≠ some .Comma then do
      let toks ← expect_rparen opener toks
      .ok (first, toks)
    else do
      let (elems, toks) ← manyAfter .Comma .Type type toks
      let toks ← expect_rparen opener toks
      .ok (.TTuple (first :: elems), toks)

mutual

def parse_type : (levels : ℕ) → (threshold : ℕ) → List Token → ParseM (TypeAnn × List Token)
  | 0, _, _ => too_deep .Type
  | levels + 1, threshold, toks => do
    let (left, toks) ← parse_type_app levels threshold toks
    if arrow_in_block threshold toks then do
      let (_, toks) ← bump .Type toks
      let (right, toks) ← parse_type levels threshold toks
      .ok (.TLambda left right, toks)
    else .ok (left, toks)

def parse_type_app : (levels : ℕ) → (threshold : ℕ) → List Token →
    ParseM (TypeAnn × List Token)
  | 0, _, _ => too_deep .Type
  | levels + 1, threshold, toks => do
    let (head, toks) ← parse_type_atom levels toks
    let (args, toks) ← many (peek_is_type_atom_in_block threshold) (parse_type_atom levels) toks
    let type ← applyType head args
    .ok (type, toks)

def parse_type_atom : (levels : ℕ) → List Token → ParseM (TypeAnn × List Token)
  | 0, _ => too_deep .Type
  | levels + 1, toks => do
    let (tok, toks) ← bump .Type toks
    match tok.kind with
    | .LParen => parse_paren_type (parse_type levels 0) tok.span toks
    | .LBrace => parse_record_type levels toks
    | .Ident text =>
      if !first_upper text && text.contains '.' then fail .ExpectedType else .ok (nameType text, toks)
    | _ => fail .ExpectedType

def parse_record_type : (levels : ℕ) → List Token → ParseM (TypeAnn × List Token)
  | 0, _ => too_deep .Type
  | levels + 1, toks => parse_record_type_body (parse_type levels 0) toks

end

/-- A type and nothing after it. -/
def parse_type_standalone (toks : List Token) : ParseM TypeAnn := do
  let (ann, toks) ← parse_type (MAX_DEPTH + 1) 0 toks
  match toks with
  | [] => .ok ann
  | trailing :: _ => fail (.UnexpectedToken trailing.kind [])

end IpeLang.Parse
