import IpeLang.Types.Zonk

/-!
# Unification and the solver

`types/src/unify.rs`, with the tables of `types/src/super_bounds.rs`, and `solve_attributed` of
`types/src/solve.rs`. Unification is a loop over a stack of pending pairs; each round agrees the
two heads of a pair in place and pushes the pairs of their children.

The functions take the arena, the budget and the stack and give them back. Those with a loop in
them take the fuel for it first.
-/

namespace IpeLang.Types

open IpeLang.Lib

/-! ### The primitives that satisfy a super-type -/

def NUMBER : List String := ["Int", "Float"]

def ORD_BORROW : List String := ["Int", "Float", "Char", "String", "Bool"]

def COMPARABLE_KEY : List String := ["Int", "Float", "Char", "String", "Bool"]

def APPEND_PRIM : List String := ["String"]

/-- Whether a primitive is in a table; a type that is no bare primitive is in none. -/
def primSatisfies (table : List String) (prim : Option String) : Bool :=
  prim.any fun p => table.contains p

/-- The name of a bare built-in type constructor. -/
def bareName (ι : Interner) : FlatType → Option String
  | .con home name args => if home.isEmpty && args.isEmpty then ι.resolve name else none
  | _ => none

/-- Whether a structure is the built-in `List` of something. -/
def isBuiltinList (ι : Interner) : FlatType → Bool
  | .con home name args => home.isEmpty && args.length == 1 && ι.resolve name == some "List"
  | _ => false

/-- Whether a structure satisfies the obligations `bounds` at its head. -/
def superConcreteOk (ι : Interner) (bounds : TyBounds) (flat : FlatType) : Bool :=
  match flat with
  | .fn _ _ => false
  | _ =>
    let prim := bareName ι flat
    let numberOk := primSatisfies NUMBER prim
    let ordOk := primSatisfies ORD_BORROW prim
    let appendableOk := primSatisfies APPEND_PRIM prim || isBuiltinList ι flat
    let keyOk := primSatisfies COMPARABLE_KEY prim
    (!bounds.hasNumber || numberOk) && (!bounds.hasOrd || ordOk) &&
      (!bounds.hasComparableKey || keyOk) && (!bounds.hasAppend || appendableOk)

/-! ### Heads of type constructors -/

/-- The root segment of every standard-library home. -/
def IPE_STDLIB_ROOT : String := "Ipe"

/-- The built-in type names that no user module may declare (`canon/src/resolve.rs`). -/
def RESERVED_BUILTIN_TYPES : List String :=
  ["Int", "Float", "Bool", "String", "Error", "Char", "Bytes", "Task", "Maybe", "Result", "List",
    "Dict", "Set", "Decoder", "Db", "Cmd", "Sub", "SqlValue", "SqlField", "ProjectionTerm",
    "ProjectionOperand", "ArithOp", "SqlFragment", "Secret", "Algorithm", "Path", "Regex", "Url",
    "Relative", "Dsn", "Key", "Mac", "EmailAddress", "Locale", "Principal", "Connection",
    "ReadOnly", "ReadWrite", "CustomElement", "Topic", "StreamId", "ChunkEvent", "HttpMethod",
    "Request", "Response", "Route", "Cookie", "AuthConfig", "TokenSource", "Setting", "Program",
    "HostMode", "LogLevel", "CsrfMode", "RevocationMode", "Html", "View", "Element", "Screen",
    "Cells", "TuiAttr", "Lines", "CliAttr", "ColorError", "TermProfile", "AnsiColor", "WcagLevel",
    "TextSize", "Deficiency", "Attribute", "Event", "Length", "HAlign", "VAlign", "Location",
    "PseudoClass", "Description", "LayoutContext", "WebReq", "SessionHandle"]

def isUserTypeDeclarationForbidden (name : String) : Bool := RESERVED_BUILTIN_TYPES.contains name

/-- Whether a constructor of the empty home may unify with one of the home `otherHome`. -/
def emptyHomeCompat (ι : Interner) (otherHome : List Symbol) (name : Symbol) : Bool :=
  let ipeRooted := (otherHome.head?.bind ι.resolve).any fun root => root == IPE_STDLIB_ROOT
  ipeRooted || (ι.resolve name).any isUserTypeDeclarationForbidden

/-- Whether two constructor heads name the same type constructor. -/
def conHeadsCompatible (ι : Interner) (m₁ : List Symbol) (n₁ : Symbol) (m₂ : List Symbol)
    (n₂ : Symbol) : Bool :=
  n₁ == n₂ && (m₁ == m₂ || (m₁.isEmpty && emptyHomeCompat ι m₂ n₂) ||
    (m₂.isEmpty && emptyHomeCompat ι m₁ n₁))

/-! ### Refusals -/

/-- Whether a type is the web view carrier. -/
def isWebView (ι : Interner) : Ty → Bool
  | .con _ name args =>
    match ι.resolve name with
    | some "Element" => true
    | some "View" =>
      match args.head? with
      | some (.con _ tag _) => ι.resolve tag == some "Web"
      | _ => false
    | _ => false
  | _ => false

def isHtml (ι : Interner) : Ty → Bool
  | .con _ name _ => ι.resolve name == some "Html"
  | _ => false

/-- Whether the two types are the web view and `Html`, in either order. -/
def isElementHtmlClash (ι : Interner) (a b : Ty) : Bool :=
  (isWebView ι a && isHtml ι b) || (isHtml ι a && isWebView ι b)

/-- The refusal of two variables that do not unify: a mismatch of their types, or what went wrong
while these were read back. -/
def mismatch (fuel : ℕ) (uf : UnionFind Content) (budget : Budget) (ι : Interner) (span : Span)
    (found expected : VarId) : Stop Diagnostic :=
  match zonk fuel uf budget expected with
  | .error bug => bug
  | .ok (expectedTy, uf, budget) =>
    match zonk fuel uf budget found with
    | .error bug => bug
    | .ok (foundTy, _, _) =>
      if isElementHtmlClash ι expectedTy foundTy then .diag (.type span .webViewReturnsHtml)
      else
        match tyToDoc ι expectedTy .new with
        | .error bug => .diag bug
        | .ok (expectedDoc, namer) =>
          match tyToDoc ι foundTy namer with
          | .error bug => .diag bug
          | .ok (foundDoc, _) => .diag (.type span (.typeMismatch expectedDoc foundDoc))

/-- The refusal of a variable that would have to contain itself. -/
def infiniteType (fuel : ℕ) (uf : UnionFind Content) (budget : Budget) (ι : Interner) (span : Span)
    (var structure_ : VarId) : Stop Diagnostic :=
  match zonk fuel uf budget var with
  | .error bug => bug
  | .ok (varTy, uf, budget) =>
    match tyToDoc ι varTy .new with
    | .error bug => .diag bug
    | .ok (varDoc, namer) =>
      let varName := match varDoc with
        | .var v => v
        | _ => "?"
      match zonk fuel uf budget structure_ with
      | .error bug => bug
      | .ok (structureTy, _, _) =>
        match tyToDoc ι structureTy namer with
        | .error bug => .diag bug
        | .ok (structureDoc, _) => .diag (.type span (.infiniteType varName structureDoc))

/-! ### The occurs check -/

/-- The state of the occurs walk. -/
abbrev OccursState := UnionFind Content × Budget × List VarId

/-- One node of the occurs walk: the children of a structure go on the stack, so the last one is
next. -/
def occursStep (target : VarId) :
    OccursState → DResult (OccursState ⊕ (Bool × UnionFind Content × Budget))
  | (uf, budget, []) => .ok (.inr (false, uf, budget))
  | (uf, budget, n :: stack) => do
    let budget ← budget.tick
    let (here, uf) ← uf.find n
    if here = target then .ok (.inr (true, uf, budget))
    else
      let c ← uf.rootContent here
      .ok (.inl (uf, budget, c.children.reverse ++ stack))

/-- Whether `target` appears in the structure rooted at `node`. -/
def occurs (fuel : ℕ) (uf : UnionFind Content) (budget : Budget) (target node : VarId) :
    DResult (Bool × UnionFind Content × Budget) :=
  loop (occursStep target) fuel (uf, budget, [node])

/-- Refuse to bind `var` to a structure in which it occurs. -/
def occursGuard (fuel : ℕ) (uf : UnionFind Content) (budget : Budget) (ι : Interner) (span : Span)
    (var structure_ : VarId) : DResult (UnionFind Content × Budget) := do
  let (target, uf) ← uf.find var
  let (found, uf, budget) ← occurs fuel uf budget target structure_
  if found then .error (infiniteType fuel uf budget ι span target structure_)
  else .ok (uf, budget)

/-! ### One obligation -/

/-- Merge two variables neither of which carries a structure. -/
def unifyNonstructure (fuel : ℕ) (uf : UnionFind Content) (budget : Budget) (ι : Interner)
    (span : Span) (ra rb : VarId) (ca cb : Content) : DResult (UnionFind Content) :=
  match ca, cb with
  | .flex, .flex => uf.union ra rb .flex
  | .flex, .rigid => uf.union ra rb .rigid
  | .rigid, .flex => uf.union ra rb .rigid
  | .super rigid bounds, .flex => uf.union ra rb (.super rigid bounds)
  | .flex, .super rigid bounds => uf.union ra rb (.super rigid bounds)
  | .super r₁ b₁, .super r₂ b₂ =>
    let concreteDispatch := b₁.hasNumber || b₂.hasNumber || b₁.hasAppend || b₂.hasAppend
    let canUnion := !(r₁ && r₂) && ((r₁ == r₂) || !concreteDispatch)
    if canUnion then uf.union ra rb (.super (r₁ || r₂) (b₁.union b₂))
    else .error (mismatch fuel uf budget ι span ra rb)
  | .super false bounds, .rigid => uf.union ra rb (.super true bounds)
  | .rigid, .super false bounds => uf.union ra rb (.super true bounds)
  | _, _ => .error (mismatch fuel uf budget ι span ra rb)

/-- Whether a child already is in one of the two classes that are to be merged. -/
def mergesIntoSelf (uf : UnionFind Content) (ra rb : VarId) :
    List VarId → DResult (Bool × UnionFind Content)
  | [] => .ok (false, uf)
  | child :: children => do
    let (root, uf) ← uf.find child
    if root = ra ∨ root = rb then .ok (true, uf)
    else mergesIntoSelf uf ra rb children

/-- Whether a row tail is the closed-tail sentinel. -/
def isEmptyRecord (uf : UnionFind Content) (v : VarId) : DResult (Bool × UnionFind Content) := do
  let (root, uf) ← uf.find v
  let (c, uf) ← uf.content root
  .ok (c == .struct .emptyRecord, uf)

/-- The pending pairs, the next one first. -/
abbrev Pending := List (VarId × VarId)

/-- Merge two open records whose field sets differ: each tail takes the fields that only the other
side has. -/
def unifyOpenRecordRows (uf : UnionFind Content) (ra rb : VarId) (fs₁ : SortedMap Symbol VarId)
    (ext₁ ext₂ : VarId) (only₁ only₂ : SortedMap Symbol VarId) (stack : Pending) :
    DResult (UnionFind Content × Pending) := do
  let merged := fs₁.insertAll only₂
  match only₁.isEmpty, only₂.isEmpty with
  | true, false =>
    let uf ← uf.union ra rb (.struct (.record merged ext₂))
    let (ext₁Target, uf) ← uf.fresh (.struct (.record only₂ ext₂))
    .ok (uf, (ext₁, ext₁Target) :: stack)
  | false, true =>
    let uf ← uf.union ra rb (.struct (.record merged ext₁))
    let (ext₂Target, uf) ← uf.fresh (.struct (.record only₁ ext₁))
    .ok (uf, (ext₂, ext₂Target) :: stack)
  | false, false =>
    let (newExt, uf) ← uf.fresh .flex
    let uf ← uf.union ra rb (.struct (.record merged newExt))
    let (ext₁Target, uf) ← uf.fresh (.struct (.record only₂ newExt))
    let (ext₂Target, uf) ← uf.fresh (.struct (.record only₁ newExt))
    .ok (uf, (ext₁, ext₁Target) :: (ext₂, ext₂Target) :: stack)
  | true, true =>
    let uf ← uf.union ra rb (.struct (.record merged ext₁))
    .ok (uf, (ext₁, ext₂) :: stack)

/-- Unify two structures at the roots `ra` and `rb`. -/
def unifyFlat (fuel : ℕ) (uf : UnionFind Content) (budget : Budget) (ι : Interner) (span : Span)
    (ra rb : VarId) (fa fb : FlatType) (stack : Pending) :
    DResult (UnionFind Content × Pending) := do
  match fa, fb with
  | .unit, .unit =>
    let uf ← uf.union ra rb (.struct .unit)
    .ok (uf, stack)
  | .fn a₁ r₁, .fn a₂ r₂ =>
    let uf ← uf.union ra rb (.struct (.fn a₁ r₁))
    .ok (uf, (a₁, a₂) :: (r₁, r₂) :: stack)
  | .con m₁ n₁ as₁, .con m₂ n₂ as₂ =>
    if !conHeadsCompatible ι m₁ n₁ m₂ n₂ || as₁.length != as₂.length then
      .error (mismatch fuel uf budget ι span ra rb)
    else
      let canonicalModule := if m₁.isEmpty then m₂ else m₁
      let (self₂, uf) ← mergesIntoSelf uf ra rb as₂
      if self₂ then .error (infiniteType fuel uf budget ι span ra rb)
      else
        let (self₁, uf) ← mergesIntoSelf uf ra rb as₁
        if self₁ then .error (infiniteType fuel uf budget ι span ra rb)
        else
          let uf ← uf.union ra rb (.struct (.con canonicalModule n₁ as₁))
          .ok (uf, as₁.zip as₂ ++ stack)
  | .tuple es₁, .tuple es₂ =>
    if es₁.length != es₂.length then .error (mismatch fuel uf budget ι span ra rb)
    else
      let (self₂, uf) ← mergesIntoSelf uf ra rb es₂
      if self₂ then .error (infiniteType fuel uf budget ι span ra rb)
      else
        let (self₁, uf) ← mergesIntoSelf uf ra rb es₁
        if self₁ then .error (infiniteType fuel uf budget ι span ra rb)
        else
          let uf ← uf.union ra rb (.struct (.tuple es₁))
          .ok (uf, es₁.zip es₂ ++ stack)
  | .record fs₁ ext₁, .record fs₂ ext₂ =>
    -- the shared fields are pushed in key order, so the last one is next
    let stack := (fs₁.shared fs₂).reverse ++ stack
    let only₁ := fs₁.filterKeys fun k => !fs₂.contains k
    let only₂ := fs₂.filterKeys fun k => !fs₁.contains k
    let (closed₁, uf) ← isEmptyRecord uf ext₁
    let (closed₂, uf) ← isEmptyRecord uf ext₂
    let extras₁Illegal := closed₂ && !only₁.isEmpty
    let extras₂Illegal := closed₁ && !only₂.isEmpty
    if extras₁Illegal || extras₂Illegal then .error (mismatch fuel uf budget ι span ra rb)
    else if only₁.isEmpty && only₂.isEmpty then
      let uf ← uf.union ra rb (.struct (.record fs₁ ext₁))
      .ok (uf, (ext₁, ext₂) :: stack)
    else unifyOpenRecordRows uf ra rb fs₁ ext₁ ext₂ only₁ only₂ stack
  | .emptyRecord, .emptyRecord =>
    let uf ← uf.union ra rb (.struct .emptyRecord)
    .ok (uf, stack)
  | _, _ => .error (mismatch fuel uf budget ι span ra rb)

/-- A super-typed variable meets the structure at `structureVar`. -/
def unifySuperStructure (fuel : ℕ) (uf : UnionFind Content) (budget : Budget) (ι : Interner)
    (span : Span) (ra rb structureVar : VarId) (rigid : Bool) (bounds : TyBounds)
    (flat : FlatType) : DResult (UnionFind Content) := do
  if !rigid && superConcreteOk ι bounds flat then uf.union ra rb (.struct flat)
  else if !rigid && bounds.hasInterpolable then
    let (ty, _, _) ← zonk fuel uf budget structureVar
    .error (.diag (superUnsatisfied ι bounds ty span))
  else .error (mismatch fuel uf budget ι span ra rb)

/-- Agree the heads of two classes one of which, at least, carries a structure. -/
def unifyStructure (fuel : ℕ) (uf : UnionFind Content) (budget : Budget) (ι : Interner)
    (span : Span) (ra rb : VarId) (stack : Pending) :
    DResult (UnionFind Content × Budget × Pending) := do
  let (ca, uf) ← uf.content ra
  let (cb, uf) ← uf.content rb
  match ca, cb with
  | .flex, .struct f =>
    let (uf, budget) ← occursGuard fuel uf budget ι span ra rb
    let uf ← uf.union ra rb (.struct f)
    .ok (uf, budget, stack)
  | .struct f, .flex =>
    let (uf, budget) ← occursGuard fuel uf budget ι span rb ra
    let uf ← uf.union ra rb (.struct f)
    .ok (uf, budget, stack)
  | .super rigid bounds, .struct f =>
    let uf ← unifySuperStructure fuel uf budget ι span ra rb rb rigid bounds f
    .ok (uf, budget, stack)
  | .struct f, .super rigid bounds =>
    let uf ← unifySuperStructure fuel uf budget ι span ra rb ra rigid bounds f
    .ok (uf, budget, stack)
  | .rigid, .struct _ => .error (mismatch fuel uf budget ι span ra rb)
  | .struct _, .rigid => .error (mismatch fuel uf budget ι span ra rb)
  | .struct fa, .struct fb =>
    let (uf, stack) ← unifyFlat fuel uf budget ι span ra rb fa fb stack
    .ok (uf, budget, stack)
  | ca, cb =>
    let uf ← unifyNonstructure fuel uf budget ι span ra rb ca cb
    .ok (uf, budget, stack)

/-- Process one obligation: agree the two heads and push the obligations of their children. -/
def unifyStep (fuel : ℕ) (uf : UnionFind Content) (budget : Budget) (ι : Interner) (span : Span)
    (a b : VarId) (stack : Pending) : DResult (UnionFind Content × Budget × Pending) := do
  let budget ← budget.tick
  let (ra, uf) ← uf.find a
  let (rb, uf) ← uf.find b
  if ra = rb then .ok (uf, budget, stack)
  else
    let peekA ← uf.rootContent ra
    if peekA.isStructure then unifyStructure fuel uf budget ι span ra rb stack
    else
      let peekB ← uf.rootContent rb
      if peekB.isStructure then unifyStructure fuel uf budget ι span ra rb stack
      else
        let uf ← unifyNonstructure fuel uf budget ι span ra rb peekA peekB
        .ok (uf, budget, stack)

/-! ### The loop -/

/-- The state of unification between two obligations. -/
abbrev UnifyState := UnionFind Content × Budget × Pending

/-- One round of the loop of `unify`. -/
def unifyRound (fuel : ℕ) (ι : Interner) (span : Span) :
    UnifyState → DResult (UnifyState ⊕ (UnionFind Content × Budget))
  | (uf, budget, []) => .ok (.inr (uf, budget))
  | (uf, budget, (a, b) :: stack) => do
    let st ← unifyStep fuel uf budget ι span a b stack
    .ok (.inl st)

/-- Unify the types of the variables `a` (found) and `b` (expected) in place. -/
def unify (fuel : ℕ) (uf : UnionFind Content) (budget : Budget) (ι : Interner) (span : Span)
    (a b : VarId) : DResult (UnionFind Content × Budget) :=
  loop (unifyRound fuel ι span) fuel (uf, budget, [(a, b)])

/-! ### The solver -/

/-- A module path that names one module. -/
structure ModuleHome where
  path : List Symbol
  nonempty : path ≠ []

/-- The error of the type checker: a source error with the module that owns it, or a diagnostic of
the whole program. -/
inductive InferError
  | sited (diag : Diagnostic) (home : ModuleHome)
  | program (diag : Diagnostic)

def isProgramWide : Diagnostic → Bool
  | .compilerBug _ _ => true
  | .type _ (.stepBudgetExceeded _) => true
  | _ => false

/-- Pair a diagnostic with the module that owns its span. -/
def InferError.site (diag : Diagnostic) (home : ModuleHome) : InferError :=
  if isProgramWide diag then .program diag else .sited diag home

/-- An equality constraint: the types of two variables must unify. -/
structure Constraint where
  span : Span
  lhs : VarId
  rhs : VarId
  home : ModuleHome

/-- Site the error of a run. -/
def siteError {α : Type} (home : ModuleHome) : DResult α → Run InferError α
  | .ok x => .ok x
  | .error .fuel => .error .fuel
  | .error (.diag d) => .error (.diag (.site d home))

/-- Unify `a` with `b`, siting a failure in the module that owns `span`. -/
def unifyAt (fuel : ℕ) (uf : UnionFind Content) (budget : Budget) (ι : Interner)
    (home : ModuleHome) (span : Span) (a b : VarId) :
    Run InferError (UnionFind Content × Budget) :=
  siteError home (unify fuel uf budget ι span a b)

/-- Solve every constraint in order, unifying in place. -/
def solveAttributed (fuel : ℕ) (ι : Interner) :
    List Constraint → UnionFind Content → Budget → Run InferError (UnionFind Content × Budget)
  | [], uf, budget => .ok (uf, budget)
  | c :: cs, uf, budget => do
    let (uf, budget) ← unifyAt fuel uf budget ι c.home c.span c.lhs c.rhs
    solveAttributed fuel ι cs uf budget

end IpeLang.Types
