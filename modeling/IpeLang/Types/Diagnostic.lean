import IpeLang.Lib.Loop
import IpeLang.Types.Ty

/-!
# Diagnostics of the solver

The part of `diagnostics/src/diagnostic.rs` that the solver raises, the rendering of types into
them (`types/src/doc.rs`, `super_unsatisfied` of `types/src/lib.rs`) and the step budget
(`types/src/solve.rs`).
-/

namespace IpeLang.Types

open IpeLang.Lib

/-- A source region. -/
structure Span where
  lo : ℕ
  hi : ℕ
  deriving DecidableEq, Repr

/-- The region of a node that has no place in the source. -/
def Span.dummy : Span := ⟨0, 0⟩

/-- A type with every name resolved. -/
inductive TyDoc
  | con (module name : String) (args : List TyDoc)
  | fn (arg result : TyDoc)
  | var (name : String)
  | unit
  | tuple (elems : List TyDoc)
  | record (fields : List (String × TyDoc))
  deriving Repr

/-- The type errors that the solver raises. -/
inductive TypeError
  | typeMismatch (expected found : TyDoc)
  | infiniteType (var : String) (ty : TyDoc)
  | stepBudgetExceeded (budget : ℕ)
  | webViewReturnsHtml
  | superTypeUnsatisfied (cls : String) (found : TyDoc)
  deriving Repr

/-- A diagnostic: a broken invariant of the compiler, or a type error at a region. -/
inductive Diagnostic
  | compilerBug (where_ detail : String)
  | type (span : Span) (msg : TypeError)
  deriving Repr

/-- The result of a fallible function of the solver. -/
abbrev DResult (α : Type) := Run Diagnostic α

/-! ### Rendering -/

/-- The letters given so far to the type variables of one diagnostic. -/
structure VarNamer where
  map : SortedMap ℕ String
  next : ℕ

/-- A namer with no assignments. -/
def VarNamer.new : VarNamer := ⟨.empty, 0⟩

/-- `0 → a`, `25 → z`, `26 → a1`, `27 → b1`, … -/
def letters (k : ℕ) : String :=
  let letter := Char.ofNat ('a'.toNat + k % 26)
  let suffix := k / 26
  if suffix = 0 then letter.toString else s!"{letter}{suffix}"

/-- The name of the variable `id`, a new one on first sight. -/
def VarNamer.name (namer : VarNamer) (id : ℕ) : String × VarNamer :=
  match namer.map.get? id with
  | some existing => (existing, namer)
  | none =>
    let name := letters namer.next
    (name, ⟨namer.map.insert id name, min (namer.next + 1) (2 ^ 32 - 1)⟩)

def resolveSymbol (ι : Interner) (sym : Symbol) : Except Diagnostic String :=
  match ι.resolve sym with
  | some name => .ok name
  | none => .error (.compilerBug "intern.resolve" s!"no backing string for symbol {sym}")

/-- The dotted path of a module, empty for the built-in home. -/
def resolveModule (ι : Interner) (module : List Symbol) : Except Diagnostic String := do
  let parts ← module.mapM (resolveSymbol ι)
  .ok (".".intercalate parts)

mutual

/-- Render a resolved type. -/
def tyToDoc (ι : Interner) : Ty → VarNamer → Except Diagnostic (TyDoc × VarNamer)
  | .unit, namer => .ok (.unit, namer)
  | .var id, namer =>
    let (name, namer) := namer.name id
    .ok (.var name, namer)
  | .fn a b, namer => do
    let (a, namer) ← tyToDoc ι a namer
    let (b, namer) ← tyToDoc ι b namer
    .ok (.fn a b, namer)
  | .con home name args, namer => do
    let module ← resolveModule ι home
    let name ← resolveSymbol ι name
    let (args, namer) ← tysToDoc ι args namer
    .ok (.con module name args, namer)
  | .tuple elems, namer => do
    let (elems, namer) ← tysToDoc ι elems namer
    .ok (.tuple elems, namer)
  | .record fields _, namer => do
    let (entries, namer) ← fieldsToDoc ι fields namer
    .ok (.record (entries.mergeSort fun p q => p.1 ≤ q.1), namer)

def tysToDoc (ι : Interner) : List Ty → VarNamer → Except Diagnostic (List TyDoc × VarNamer)
  | [], namer => .ok ([], namer)
  | t :: ts, namer => do
    let (d, namer) ← tyToDoc ι t namer
    let (ds, namer) ← tysToDoc ι ts namer
    .ok (d :: ds, namer)

def fieldsToDoc (ι : Interner) :
    List (Symbol × Ty) → VarNamer → Except Diagnostic (List (String × TyDoc) × VarNamer)
  | [], namer => .ok ([], namer)
  | (name, t) :: fields, namer => do
    let name ← resolveSymbol ι name
    let (d, namer) ← tyToDoc ι t namer
    let (entries, namer) ← fieldsToDoc ι fields namer
    .ok ((name, d) :: entries, namer)

end

/-- A diagnostic for a symbol without a backing string. -/
def Diagnostic.IsUnresolved (d : Diagnostic) : Prop :=
  ∃ detail, d = .compilerBug "intern.resolve" detail

section Rendering

variable {ι : Interner} {d : Diagnostic}

theorem resolveSymbol_error {sym : Symbol} (h : resolveSymbol ι sym = .error d) :
    d.IsUnresolved := by
  unfold resolveSymbol at h
  split at h <;> cases h
  exact ⟨_, rfl⟩

theorem resolveModule_error {module : List Symbol} (h : resolveModule ι module = .error d) :
    d.IsUnresolved := by
  have hparts : ∀ {l : List Symbol}, l.mapM (resolveSymbol ι) = .error d → d.IsUnresolved := by
    intro l
    induction l with
    | nil => exact fun h => by cases h
    | cons sym l ih =>
      intro h
      rw [List.mapM_cons, Run.bind_eq_error] at h
      rcases h with h | ⟨name, -, h⟩
      · exact resolveSymbol_error h
      rw [Run.bind_eq_error] at h
      rcases h with h | ⟨names, -, h⟩
      · exact ih h
      · cases h
  unfold resolveModule at h
  rw [Run.bind_eq_error] at h
  rcases h with h | ⟨parts, -, h⟩
  · exact hparts h
  · cases h

mutual

/-- Rendering goes wrong only where a symbol has no backing string. -/
theorem tyToDoc_error : ∀ (t : Ty) {namer : VarNamer}, tyToDoc ι t namer = .error d → d.IsUnresolved
  | .unit, _, h => by cases h
  | .var _, _, h => by cases h
  | .fn a b, _, h => by
    simp only [tyToDoc, Run.bind_eq_error] at h
    rcases h with h | ⟨_, -, h | ⟨_, -, h⟩⟩
    · exact tyToDoc_error a h
    · exact tyToDoc_error b h
    · cases h
  | .con home name args, _, h => by
    simp only [tyToDoc, Run.bind_eq_error] at h
    rcases h with h | ⟨_, -, h | ⟨_, -, h | ⟨_, -, h⟩⟩⟩
    · exact resolveModule_error h
    · exact resolveSymbol_error h
    · exact tysToDoc_error args h
    · cases h
  | .tuple elems, _, h => by
    simp only [tyToDoc, Run.bind_eq_error] at h
    rcases h with h | ⟨_, -, h⟩
    · exact tysToDoc_error elems h
    · cases h
  | .record fields _, _, h => by
    simp only [tyToDoc, Run.bind_eq_error] at h
    rcases h with h | ⟨_, -, h⟩
    · exact fieldsToDoc_error fields h
    · cases h

theorem tysToDoc_error :
    ∀ (ts : List Ty) {namer : VarNamer}, tysToDoc ι ts namer = .error d → d.IsUnresolved
  | [], _, h => by cases h
  | t :: ts, _, h => by
    simp only [tysToDoc, Run.bind_eq_error] at h
    rcases h with h | ⟨_, -, h | ⟨_, -, h⟩⟩
    · exact tyToDoc_error t h
    · exact tysToDoc_error ts h
    · cases h

theorem fieldsToDoc_error : ∀ (fields : List (Symbol × Ty)) {namer : VarNamer},
    fieldsToDoc ι fields namer = .error d → d.IsUnresolved
  | [], _, h => by cases h
  | (name, t) :: fields, _, h => by
    simp only [fieldsToDoc, Run.bind_eq_error] at h
    rcases h with h | ⟨_, -, h | ⟨_, -, h | ⟨_, -, h⟩⟩⟩
    · exact resolveSymbol_error h
    · exact tyToDoc_error t h
    · exact fieldsToDoc_error fields h
    · cases h

end

end Rendering

def HOF_KERNEL_RESULT_CLASS : String := "non-function callback result (higher-order kernel)"

def INTERPOLABLE_CLASS : String := "interpolable scalar"

/-- The super-types that a variable owes, in a fixed order. -/
def TyBounds.classes (b : TyBounds) : List String :=
  (if b.hasNumber then ["Number"] else []) ++
  (if b.hasOrd || b.hasComparableKey then ["Comparable"] else []) ++
  (if b.hasEq then ["Equatable"] else []) ++
  (if b.hasShow then ["Stringify"] else []) ++
  (if b.hasAppend then ["Appendable"] else []) ++
  (if b.hasHofKernelResult then [HOF_KERNEL_RESULT_CLASS] else [])

/-- The diagnostic for a type that does not meet the obligations `bounds`. -/
def superUnsatisfied (ι : Interner) (bounds : TyBounds) (ty : Ty) (span : Span) : Diagnostic :=
  let cls :=
    if bounds.hasInterpolable then INTERPOLABLE_CLASS
    else if bounds.classes.isEmpty then "Equatable"
    else " + ".intercalate bounds.classes
  match tyToDoc ι ty .new with
  | .error bug => bug
  | .ok (found, _) => .type span (.superTypeUnsatisfied cls found)

/-! ### The step budget -/

/-- The remaining solver steps, `none` when disabled, and the cap they started from. -/
structure Budget where
  remaining : Option ℕ
  limit : ℕ
  deriving DecidableEq, Repr

/-- A disabled budget. -/
def Budget.unbounded : Budget := ⟨none, 0⟩

/-- Consume one step. -/
def Budget.tick (b : Budget) : DResult Budget :=
  match b.remaining with
  | none => .ok b
  | some 0 => .error (.diag (.type .dummy (.stepBudgetExceeded b.limit)))
  | some (n + 1) => .ok { b with remaining := some n }

/-- Whether the budget is disabled. -/
def Budget.isUnbounded (b : Budget) : Bool := b.remaining.isNone

theorem Budget.tick_of_isUnbounded {b : Budget} (h : b.isUnbounded) : b.tick = .ok b := by
  obtain ⟨_ | n, l⟩ := b
  · rfl
  · cases h

theorem Budget.tick_error {b : Budget} {e : Stop Diagnostic} (h : b.tick = .error e) :
    e = .diag (.type .dummy (.stepBudgetExceeded b.limit)) := by
  obtain ⟨_ | _ | n, l⟩ := b <;> cases h
  rfl

theorem Budget.tick_ended (b : Budget) : b.tick.Ended := by
  obtain ⟨_ | _ | n, l⟩ := b <;> simp [tick, Run.Ended]

end IpeLang.Types
