import IpeLang.Lib.Loop
import IpeLang.Lib.PatternTree
import IpeLang.Lib.Text
import IpeLang.Types.Diagnostic

/-!
# Patterns of a case

The patterns of `canon/src/ast.rs`, and how `types/src/exhaust.rs` reads them.

* `Pattern_`: a resolved pattern;
* `Sigs`: the constructors of the unions of a program;
* `ExhaustBudget`: the work that is left for one `case`;
* `expand_upats`: a pattern as the rows of wildcards and heads that it stands for;
* `pattern_uses_unknown_ctor`: a pattern that is not judged.
-/

namespace IpeLang.Exhaust

open IpeLang.Types (Symbol Span)
open Lib (Str Pat Tree)

/-- A resolved pattern. Of the places in the source only those of alternatives are used. -/
inductive Pattern_
  | PAnything
  | PDebugAnything
  | PUnit
  | PVar (name : Symbol)
  | PCtor (home : List Symbol) (type_name name : Symbol) (index : ℕ) (args : List Pattern_)
  | PTuple (elems : List Pattern_)
  | PRecord (fields : List Symbol)
  | PInt (n : Int64)
  | PBool (b : Bool)
  | PChar (c : Str)
  | PStr (s : Str)
  | PAlias (inner : Pattern_) (name : Symbol)
  | PList (elems : List Pattern_)
  | PCons (head tail : Pattern_)
  | POr (alts : List (Span × Pattern_))

/-- A head constructor. That of an ADT is named together with the home of its type. -/
inductive Head
  | Adt (home : List Symbol) (name : Symbol)
  | Tuple (n : ℕ)
  | Bool (b : Bool)
  | Int (n : Int64)
  | Char (c : Str)
  | Str (s : Str)
  | Nil
  | Cons
  deriving DecidableEq

/-- Heads of types that are never complete. -/
def isLiteral : Head → Bool
  | .Int _ => true
  | .Char _ => true
  | .Str _ => true
  | _ => false

abbrev UPat := Pat Head

abbrev Row := List UPat

abbrev Matrix := List Row

/-! ### Unions -/

structure Ctor where
  name : Symbol
  index : ℕ
  arity : ℕ

structure Union where
  home : List Symbol
  name : Symbol
  ctors : List Ctor

/-- The home and the name of a type. -/
abbrev TyId := List Symbol × Symbol

/-- The tables of constructors. What was put into a table last comes first. -/
structure Sigs where
  ctor_to_union : List ((List Symbol × Symbol) × TyId)
  union_ctors : List (TyId × List (Symbol × ℕ))
  ctor_arity : List ((List Symbol × Symbol) × ℕ)

/-- The constructors of a union in the order of their declaration. -/
def Union.sorted (u : Union) : List (Symbol × ℕ) :=
  (u.ctors.insertionSort fun a b => a.index ≤ b.index).map fun c => (c.name, c.arity)

def Sigs.add (sigs : Sigs) (ukey : TyId) (ctors : List (Symbol × ℕ)) : Sigs where
  ctor_to_union := (ctors.map fun c => ((ukey.1, c.1), ukey)).reverse ++ sigs.ctor_to_union
  union_ctors := (ukey, ctors) :: sigs.union_ctors
  ctor_arity := (ctors.map fun c => ((ukey.1, c.1), c.2)).reverse ++ sigs.ctor_arity

/-- The tables of the built-in unions, which have no home, and of those of the program. -/
def Sigs.build (exhaust_union_ctors : List (Symbol × List (Symbol × ℕ)))
    (module_unions extra_unions : List Union) : Sigs :=
  let builtins := exhaust_union_ctors.foldl (fun sigs u => sigs.add ([], u.1) u.2) ⟨[], [], []⟩
  (module_unions ++ extra_unions).foldl (fun sigs u => sigs.add (u.home, u.name) u.sorted) builtins

namespace Sigs

variable (sigs : Sigs)

def arity : Head → ℕ
  | .Tuple n => n
  | .Adt h c => (sigs.ctor_arity.lookup (h, c)).getD 0
  | .Cons => 2
  | _ => 0

/-- The constructors of the union that a constructor is one of, with the home of the union. -/
def unionOf (h : List Symbol) (c : Symbol) : Option (List Symbol × List (Symbol × ℕ)) := do
  let union ← sigs.ctor_to_union.lookup (h, c)
  let all ← sigs.union_ctors.lookup union
  some (union.1, all)

end Sigs

/-! ### The budget -/

/-- Why a `case` is not accepted. `CapUnderflow` is a subtraction below zero, `UnresolvedSymbol` a name
without a text, which is a bug of the compiler. -/
inductive Failure
  | StepBudgetExceeded (budget : ℕ)
  | NonExhaustiveCase (span : Span) (missing : List Str)
  | CapUnderflow
  | UnresolvedSymbol (sym : Symbol)
  deriving DecidableEq

abbrev DResult (α : Type) := Lib.Run Failure α

structure ExhaustBudget where
  remaining : Option ℕ
  limit : ℕ
  deriving DecidableEq

namespace ExhaustBudget

def unbounded : ExhaustBudget := ⟨none, 0⟩

/-- Take `n` units of work from a budget. -/
def charge (b : ExhaustBudget) (n : ℕ) : DResult ExhaustBudget :=
  match b.remaining with
  | none => .ok b
  | some remaining =>
    if n ≤ remaining then .ok { b with remaining := some (remaining - n) }
    else .error (.diag (.StepBudgetExceeded b.limit))

theorem charge_error {b : ExhaustBudget} {n : ℕ} {e : Lib.Stop Failure} (h : b.charge n = .error e) :
    e = .diag (.StepBudgetExceeded b.limit) := by
  obtain ⟨_ | remaining, limit⟩ := b
  · cases h
  · simp only [charge] at h
    split_ifs at h
    cases h
    rfl

@[simp] theorem charge_unbounded (n : ℕ) : unbounded.charge n = .ok unbounded := rfl

end ExhaustBudget

/-- A product of lengths of vectors. -/
def saturating_mul (a b : ℕ) : ℕ := min (a * b) (2 ^ 64 - 1)

/-! ### Rows -/

/-- Every way to go on with a choice after a row. -/
def product (rows : List Row) (column : List UPat) : List Row :=
  rows.flatMap fun row => column.map fun choice => row ++ [choice]

def cartesianFrom (acc : List Row) : List (List UPat) → ExhaustBudget → DResult (List Row × ExhaustBudget)
  | [], budget => .ok (acc, budget)
  | column :: columns, budget => do
    let budget ← budget.charge (saturating_mul acc.length column.length)
    cartesianFrom (product acc column) columns budget

/-- Every combination of one choice of each column. -/
def cartesian (columns : List (List UPat)) (budget : ExhaustBudget) : DResult (List Row × ExhaustBudget) :=
  cartesianFrom [[]] columns budget

def MAX_LIST_PATTERN_LEN : ℕ := 1024

mutual

/-- The rows that a pattern stands for. -/
def expand_upats : Pattern_ → ExhaustBudget → DResult (List UPat × ExhaustBudget)
  | .PAnything, budget => do
    let budget ← budget.charge 1
    pure ([.Wild], budget)
  | .PDebugAnything, budget => do
    let budget ← budget.charge 1
    pure ([.Wild], budget)
  | .PVar _, budget => do
    let budget ← budget.charge 1
    pure ([.Wild], budget)
  | .PUnit, budget => do
    let budget ← budget.charge 1
    pure ([.Wild], budget)
  | .PRecord _, budget => do
    let budget ← budget.charge 1
    pure ([.Wild], budget)
  | .PCtor home _ name _ args, budget => do
    let (columns, budget) ← expandAll args budget
    let (combos, budget) ← cartesian columns budget
    pure (combos.map fun combo => .Ctor (.Adt home name) combo, budget)
  | .PTuple elems, budget => do
    let (columns, budget) ← expandAll elems budget
    let (combos, budget) ← cartesian columns budget
    pure (combos.map fun combo => .Ctor (.Tuple elems.length) combo, budget)
  | .PInt n, budget => do
    let budget ← budget.charge 1
    pure ([.Ctor (.Int n) []], budget)
  | .PBool b, budget => do
    let budget ← budget.charge 1
    pure ([.Ctor (.Bool b) []], budget)
  | .PChar c, budget => do
    let budget ← budget.charge 1
    pure ([.Ctor (.Char c) []], budget)
  | .PStr s, budget => do
    let budget ← budget.charge 1
    pure ([.Ctor (.Str s) []], budget)
  | .PAlias inner _, budget => expand_upats inner budget
  | .PCons head tail, budget => do
    let (head_rows, budget) ← expand_upats head budget
    let (tail_rows, budget) ← expand_upats tail budget
    let (combos, budget) ← cartesian [head_rows, tail_rows] budget
    pure (combos.map fun combo => .Ctor .Cons combo, budget)
  | .PList elems, budget =>
    if MAX_LIST_PATTERN_LEN < elems.length then
      .error (.diag (.StepBudgetExceeded MAX_LIST_PATTERN_LEN))
    else expandSpine elems budget
  | .POr alts, budget => do
    let (out, budget) ← expandAlts alts budget
    let budget ← budget.charge out.length
    pure (out, budget)

/-- The columns of the patterns of a list. -/
def expandAll : List Pattern_ → ExhaustBudget → DResult (List (List UPat) × ExhaustBudget)
  | [], budget => .ok ([], budget)
  | p :: ps, budget => do
    let (column, budget) ← expand_upats p budget
    let (columns, budget) ← expandAll ps budget
    pure (column :: columns, budget)

/-- The rows of a list literal, which is read from its end. -/
def expandSpine : List Pattern_ → ExhaustBudget → DResult (List UPat × ExhaustBudget)
  | [], budget => .ok ([.Ctor .Nil []], budget)
  | e :: elems, budget => do
    let (rows, budget) ← expandSpine elems budget
    let (heads, budget) ← expand_upats e budget
    let budget ← budget.charge (saturating_mul heads.length rows.length)
    pure (heads.flatMap fun h => rows.map fun tail => .Ctor .Cons [h, tail], budget)

/-- The rows of all alternatives. -/
def expandAlts : List (Span × Pattern_) → ExhaustBudget → DResult (List UPat × ExhaustBudget)
  | [], budget => .ok ([], budget)
  | (_, p) :: alts, budget => do
    let (rows, budget) ← expand_upats p budget
    let (out, budget) ← expandAlts alts budget
    pure (rows ++ out, budget)

end

mutual

/-- A constructor of no union of the tables occurs in a pattern. -/
def pattern_uses_unknown_ctor (sigs : Sigs) : Pattern_ → Bool
  | .PCtor home _ name _ args =>
    (sigs.ctor_to_union.lookup (home, name)).isNone || anyUsesUnknownCtor sigs args
  | .PTuple elems => anyUsesUnknownCtor sigs elems
  | .PAlias inner _ => pattern_uses_unknown_ctor sigs inner
  | .PCons head tail => pattern_uses_unknown_ctor sigs head || pattern_uses_unknown_ctor sigs tail
  | .PList elems => anyUsesUnknownCtor sigs elems
  | .POr alts => anyAltUsesUnknownCtor sigs alts
  | .PAnything => false
  | .PDebugAnything => false
  | .PVar _ => false
  | .PUnit => false
  | .PRecord _ => false
  | .PInt _ => false
  | .PBool _ => false
  | .PChar _ => false
  | .PStr _ => false

def anyUsesUnknownCtor (sigs : Sigs) : List Pattern_ → Bool
  | [] => false
  | p :: ps => pattern_uses_unknown_ctor sigs p || anyUsesUnknownCtor sigs ps

def anyAltUsesUnknownCtor (sigs : Sigs) : List (Span × Pattern_) → Bool
  | [] => false
  | (_, p) :: alts => pattern_uses_unknown_ctor sigs p || anyAltUsesUnknownCtor sigs alts

end

end IpeLang.Exhaust
