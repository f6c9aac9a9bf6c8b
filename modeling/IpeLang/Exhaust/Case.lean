import IpeLang.Exhaust.Expand
import IpeLang.Types.Unify

/-!
# Checking a case

`check_case` of `types/src/exhaust.rs`.

* `render_upat`, `arm_label`: the spelling of patterns in findings;
* `checkUnits`: the alternatives that say nothing new;
* `closedUnion`: a catch-all arm over a union;
* `check_case`: the findings of a `case`, and what it is refused for.
-/

namespace IpeLang.Exhaust

open IpeLang.Types (Symbol Span Interner Ty conHeadsCompatible)
open Lib (Str Pat Tree Run)

/-- An arm of a `case`, with the place of its pattern. -/
structure CaseBranch (B : Type) where
  span : Span
  pat : Pattern_
  body : B

/-- What is reported of a `case` without refusing it. -/
inductive Finding
  | RedundantCaseBranch (span : Span) (constructor : Str)
  | WildcardCoversKnownConstructors (span : Span) (constructors : List Str)
  deriving DecidableEq

/-- What the check of a module knows: its unions, the types of the expressions at its places, and the texts
of names. The quoting of strings is a part of it. -/
structure Ctx where
  sigs : Sigs
  regions : Span → Option Ty
  interner : Interner
  quoted : Str → Str

def WITNESS_CAP : ℕ := 32

/-! ### Spellings -/

/-- Names in order, each once. -/
def sortedNames (names : List Str) : List Str :=
  (names.insertionSort fun a b => String.ofList a ≤ String.ofList b).destutter (· ≠ ·)

variable (ctx : Ctx)

def resolve (sym : Symbol) : DResult Str :=
  match ctx.interner.resolve sym with
  | some name => .ok name.toList
  | none => .error (.diag (.UnresolvedSymbol sym))

def truthName (b : Bool) : Str := if b then "True".toList else "False".toList

def charName (c : Str) : Str := "'".toList ++ c ++ "'".toList

def intName (n : Int64) : Str := (toString n.toInt).toList

def parenthesized (inner : Str) : Str := "(".toList ++ inner ++ ")".toList

mutual

/-- A row as it is spelled in a program, between parentheses where it is an argument. -/
def render_upat : UPat → Bool → DResult Str
  | .Wild, _ => .ok "_".toList
  | .Ctor (.Bool b) _, _ => .ok (truthName b)
  | .Ctor (.Int n) _, _ => .ok (intName n)
  | .Ctor (.Char c) _, _ => .ok (charName c)
  | .Ctor (.Str s) _, _ => .ok (ctx.quoted s)
  | .Ctor (.Tuple _) args, _ => do
    let parts ← renderAll args false
    .ok (parenthesized (", ".toList.intercalate parts))
  | .Ctor .Nil _, _ => .ok "[]".toList
  | .Ctor .Cons args, atom => do
    let head ← renderAt args 0 true
    let tail ← renderAt args 1 false
    let inner := head ++ " :: ".toList ++ tail
    .ok (if atom then parenthesized inner else inner)
  | .Ctor (.Adt _ name) args, atom => do
    let name ← resolve ctx name
    if args.isEmpty then .ok name
    else do
      let parts ← renderAll args true
      let inner := name ++ " ".toList ++ " ".toList.intercalate parts
      .ok (if atom then parenthesized inner else inner)

def renderAll : Row → Bool → DResult (List Str)
  | [], _ => .ok []
  | p :: ps, atom => do
    let part ← render_upat p atom
    let parts ← renderAll ps atom
    .ok (part :: parts)

/-- The pattern of an argument, a wildcard where there is none. -/
def renderAt : Row → ℕ → Bool → DResult Str
  | [], _, _ => .ok "_".toList
  | p :: _, 0, atom => render_upat p atom
  | _ :: ps, n + 1, atom => renderAt ps n atom

end

mutual

/-- How a finding names an arm. -/
def arm_label : Pattern_ → DResult Str
  | .PAnything => .ok "_".toList
  | .PDebugAnything => .ok "Debug._".toList
  | .PUnit => .ok "()".toList
  | .PVar name => resolve ctx name
  | .PCtor _ _ name _ _ => resolve ctx name
  | .PInt n => .ok (intName n)
  | .PBool b => .ok (truthName b)
  | .PChar c => .ok (charName c)
  | .PStr s => .ok (ctx.quoted s)
  | .PAlias inner _ => arm_label inner
  | .PTuple _ => .ok "(…)".toList
  | .PRecord _ => .ok "\x7b…\x7d".toList
  | .PList _ => .ok "[…]".toList
  | .PCons _ _ => .ok "_ :: _".toList
  | .POr alts => firstLabel alts

def firstLabel : List (Span × Pattern_) → DResult Str
  | [] => .ok "_".toList
  | (_, first) :: _ => arm_label first

end

/-! ### Redundancy -/

/-- What redundancy is judged of: an alternative of an arm, or an arm without alternatives. -/
structure CaseUnit where
  span : Span
  pat : Pattern_
  is_product : Bool

def isProduct : Pattern_ → Bool
  | .PTuple _ => true
  | .PRecord _ => true
  | _ => false

def unitsOf {B : Type} (br : CaseBranch B) : List CaseUnit :=
  match br.pat with
  | .POr alts => alts.map fun alt => ⟨alt.1, alt.2, false⟩
  | p => [⟨br.span, p, isProduct p⟩]

/-- None of some rows says anything new. -/
def rowsCovered (prior : Matrix) : List UPat → ExhaustBudget → DResult (Bool × ExhaustBudget)
  | [], budget => .ok (true, budget)
  | row :: rows, budget => do
    let (ws, budget) ← useful ctx.sigs prior [row] 1 budget
    if ws.isEmpty then rowsCovered prior rows budget else .ok (false, budget)

/-- Rows of one column. -/
def columnOf (rows : List UPat) : Matrix := rows.map fun row => [row]

/-- The label of an alternative that is reported, if it is, and the matrix with its rows. -/
def checkUnit (unit : CaseUnit) (prior : Matrix) (budget : ExhaustBudget) :
    DResult (Option Str × Matrix × ExhaustBudget) := do
  let (rows, budget) ← expand_upats unit.pat budget
  let (alternative_covered, budget) ← rowsCovered ctx prior rows budget
  if !unit.is_product && alternative_covered then do
    let label ← arm_label ctx unit.pat
    .ok (some label, prior ++ columnOf rows, budget)
  else .ok (none, prior ++ columnOf rows, budget)

/-- Report the alternatives that say nothing new. Those that are reported before an error stay so. -/
def checkUnits : List CaseUnit → Matrix → ExhaustBudget → List Finding →
    List Finding × DResult (Matrix × ExhaustBudget)
  | [], prior, budget, warnings => (warnings, .ok (prior, budget))
  | unit :: units, prior, budget, warnings =>
    match checkUnit ctx unit prior budget with
    | .error e => (warnings, .error e)
    | .ok (label, prior, budget) =>
      let found := label.toList.map fun label => Finding.RedundantCaseBranch unit.span label
      checkUnits units prior budget (warnings ++ found)

/-- The rows of all arms. -/
def branchRows {B : Type} : List (CaseBranch B) → ExhaustBudget → DResult (Matrix × ExhaustBudget)
  | [], budget => .ok ([], budget)
  | br :: branches, budget => do
    let (rows, budget) ← expand_upats br.pat budget
    let (matrix, budget) ← branchRows branches budget
    .ok (columnOf rows ++ matrix, budget)

/-! ### Catch-all arms -/

def isCatchAll : Pattern_ → Bool
  | .PAnything => true
  | .PVar _ => true
  | _ => false

mutual

/-- The constructors that a pattern names at its top. -/
def collect_named_ctors : Pattern_ → List Symbol
  | .PCtor _ _ name _ _ => [name]
  | .PAlias inner _ => collect_named_ctors inner
  | .POr alts => collectAlts alts
  | _ => []

def collectAlts : List (Span × Pattern_) → List Symbol
  | [] => []
  | (_, p) :: alts => collect_named_ctors p ++ collectAlts alts

end

/-- The union that the type of a scrutinee is. -/
def scrutinee_union (scrut : Span) : Option TyId :=
  match ctx.regions scrut with
  | some (.con module name _) =>
    if (ctx.sigs.union_ctors.lookup (module, name)).isSome then some (module, name)
    else if !conHeadsCompatible ctx.interner module name [] name then none
    else if (ctx.sigs.union_ctors.lookup ([], name)).isSome then some ([], name)
    else none
  | _ => none

/-- A catch-all arm that stands for constructors of a union. -/
def closedUnion {B : Type} (scrut : Span) (branches : List (CaseBranch B)) : DResult (List Finding) :=
  match branches.find? (fun br => isCatchAll br.pat), scrutinee_union ctx scrut with
  | some br, some union_key =>
    match ctx.sigs.union_ctors.lookup union_key with
    | none => .ok []
    | some all_ctors => do
      let named := branches.flatMap fun br => collect_named_ctors br.pat
      let remaining := all_ctors.filter fun c => !named.contains c.1
      if remaining.isEmpty then .ok []
      else do
        let ctors ← renderAll ctx
          (remaining.map fun c => .Ctor (.Adt union_key.1 c.1) (List.replicate c.2 .Wild)) false
        .ok [.WildcardCoversKnownConstructors br.span (sortedNames ctors)]
  | _, _ => .ok []

/-! ### The check -/

/-- Every value is matched by some row. -/
def checkMissing (scrut : Span) (matrix : Matrix) (budget : ExhaustBudget) : DResult Unit := do
  let (witnesses, _) ← useful ctx.sigs matrix [.Wild] WITNESS_CAP budget
  if witnesses.isEmpty then .ok ()
  else do
    let missing ← renderAll ctx (witnesses.map fun w => w.head?.getD .Wild) false
    .error (.diag (.NonExhaustiveCase scrut (sortedNames missing)))

/-- What is found of a `case`, and whether it is accepted. A `case` with an unknown constructor is not
judged. -/
def check_case {B : Type} (scrut : Span) (branches : List (CaseBranch B)) (budget : ExhaustBudget) :
    List Finding × DResult Unit :=
  if branches.any fun br => pattern_uses_unknown_ctor ctx.sigs br.pat then ([], .ok ())
  else
    match checkUnits ctx (branches.flatMap unitsOf) [] budget [] with
    | (warnings, .error e) => (warnings, .error e)
    | (warnings, .ok (_, budget)) =>
      match (do
        let (matrix, budget) ← branchRows branches budget
        checkMissing ctx scrut matrix budget
        closedUnion ctx scrut branches : DResult (List Finding)) with
      | .error e => (warnings, .error e)
      | .ok found => (warnings ++ found, .ok ())

/-- The body of the first arm that accepts a value. -/
def select {B S : Type} (branches : List (CaseBranch B)) (v : Tree Head S) : Option B :=
  (branches.find? fun br => br.pat.accepts v).map CaseBranch.body

/-! ### Errors of spellings -/

def Unresolved (e : Lib.Stop Failure) : Prop := ∃ sym, e = .diag (.UnresolvedSymbol sym)

variable {ctx} {e : Lib.Stop Failure}

theorem resolve_error {sym : Symbol} (h : resolve ctx sym = .error e) : Unresolved e := by
  unfold resolve at h
  cases hsym : ctx.interner.resolve sym with
  | some name =>
    rw [hsym] at h
    cases h
  | none =>
    rw [hsym] at h
    cases h
    exact ⟨sym, rfl⟩

mutual

theorem render_upat_error (p : UPat) {atom : Bool} (h : render_upat ctx p atom = .error e) : Unresolved e := by
  rcases p with _ | ⟨head, args⟩
  · cases h
  · cases head with
    | Bool b => cases h
    | Int n => cases h
    | Char c => cases h
    | Str s => cases h
    | Nil => cases h
    | Tuple n =>
      rcases Run.bind_eq_error.1 h with h | ⟨parts, -, h⟩
      · exact renderAll_error args h
      · cases h
    | Cons =>
      rcases Run.bind_eq_error.1 h with h | ⟨head, -, h⟩
      · exact renderAt_error args h
      · rcases Run.bind_eq_error.1 h with h | ⟨tail, -, h⟩
        · exact renderAt_error args h
        · cases h
    | Adt home name =>
      rcases Run.bind_eq_error.1 h with h | ⟨name, -, h⟩
      · exact resolve_error h
      · by_cases hargs : args.isEmpty = true
        · rw [if_pos hargs] at h
          cases h
        · rw [if_neg hargs] at h
          rcases Run.bind_eq_error.1 h with h | ⟨parts, -, h⟩
          · exact renderAll_error args h
          · cases h

theorem renderAll_error (ps : Row) {atom : Bool} (h : renderAll ctx ps atom = .error e) : Unresolved e := by
  rcases ps with _ | ⟨p, ps⟩
  · cases h
  · rcases Run.bind_eq_error.1 h with h | ⟨part, -, h⟩
    · exact render_upat_error p h
    · rcases Run.bind_eq_error.1 h with h | ⟨parts, -, h⟩
      · exact renderAll_error ps h
      · cases h

theorem renderAt_error (ps : Row) {n : ℕ} {atom : Bool} (h : renderAt ctx ps n atom = .error e) : Unresolved e := by
  rcases ps with _ | ⟨p, ps⟩
  · cases h
  · cases n with
    | zero => exact render_upat_error p h
    | succ n => exact renderAt_error ps h

end

mutual

theorem arm_label_error (p : Pattern_) (h : arm_label ctx p = .error e) : Unresolved e := by
  cases p with
  | PVar name => exact resolve_error h
  | PCtor home type_name name index args => exact resolve_error h
  | PAlias inner name => exact arm_label_error inner h
  | POr alts => exact firstLabel_error alts h
  | _ => cases h

theorem firstLabel_error (alts : List (Span × Pattern_)) (h : firstLabel ctx alts = .error e) : Unresolved e := by
  rcases alts with _ | ⟨alt, alts⟩
  · cases h
  · exact arm_label_error alt.2 h

end

end IpeLang.Exhaust
