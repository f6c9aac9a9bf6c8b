import IpeLang.Ir.Expr

/-!
# What an expression means

The meaning of an expression is built from the meanings of its parts, in any domain of values and with
any effects: what integers, kernel functions and closures are is left open. A function is called with
fuel, one unit for each call and each turn of a loop.

* `Meaning`: a domain of values;
* `match_pat`: a value against a pattern;
* `eval`: an expression in an environment;
* `eval_tail`: a body of a loop, which ends with a value or with what it writes for the next turn;
* `call`: a function of a program.
-/

namespace IpeLang.Ir

variable {κ τ V : Type} {m : Type → Type} [Monad m]

/-- What a pattern can see of a value. -/
inductive View (V : Type)
  | int (n : ℤ)
  | bool (b : Bool)
  | char (c : String)
  | str (s : String)
  | ctor (home : ModPath) (ty variant : Symbol) (args : List V)
  | tuple (parts : List V)
  | record (fields : List (Symbol × V))
  | list (items : List V)
  | other

/-- A domain of values `V` with effects `m`. The operands of an operator and the arguments of a kernel
function are computations, since these decide which of them run, and in which order. -/
structure Meaning (κ V : Type) (m : Type → Type) [Monad m] where
  int : ℤ → V
  bool : Bool → V
  float : UInt64 → V
  str : String → V
  element : String → String → V
  char : String → V
  unit : V
  ctor : ModPath → Symbol → Symbol → List V → V
  tuple : List V → V
  list : List V → V
  record : List (Symbol × V) → V
  view : V → View V
  binop : BinOp → m V → m V → m V
  truth : V → m Bool
  cons : V → V → m V
  index : V → ℕ → m V
  len_check : V → ℕ → Bool → m V
  access : V → Symbol → m V
  update : V → List (Symbol × V) → m V
  lam : (List V → m V) → V
  apply : V → List V → m V
  kernel : κ → CallPin → OnFormKind → List (m V) → m V
  ffi : Symbol → Bool → List V → m V
  task_seq : V → m V → m V
  /-- What a program does that is not well formed, and one that runs out of fuel. -/
  stuck {α : Type} : m α
  stuck_bind {α β : Type} (f : α → m β) : (stuck : m α) >>= f = stuck

/-- The values are integers, and operators fail on what they do not know. -/
def integers : Meaning Empty ℤ Option where
  int n := n
  bool b := if b then 1 else 0
  float _ := 0
  str _ := 0
  element _ _ := 0
  char _ := 0
  unit := 0
  ctor _ _ _ _ := 0
  tuple _ := 0
  list _ := 0
  record _ := 0
  view n := .int n
  binop op x y := do
    let x ← x
    let y ← y
    match op with
    | .IntAdd => some (x + y)
    | .IntSub => some (x - y)
    | .Le => some (if x ≤ y then 1 else 0)
    | _ => none
  truth v := some (v = 1)
  cons _ _ := none
  index _ _ := none
  len_check _ _ _ := none
  access _ _ := none
  update _ _ := none
  lam _ := 0
  apply _ _ := none
  kernel k := k.elim
  ffi _ _ _ := none
  task_seq _ _ := none
  stuck := none
  stuck_bind _ := rfl

/-- The values of the names in scope. -/
abbrev Env (V : Type) := Symbol → Option V

/-- The names that a pattern or a call has bound, in front of those that were in scope. -/
def Env.extend (env : Env V) (bindings : List (Symbol × V)) : Env V := fun s =>
  (bindings.lookup s).or (env s)

/-! ### Patterns -/

mutual

/-- The names that a value binds when it matches. -/
def match_pat (M : Meaning κ V m) : Pat → V → Option (List (Symbol × V))
  | .Var s, v => some [(s, v)]
  | .Wildcard, _ => some []
  | .Int n, v =>
    match M.view v with
    | .int n' => if n = n' then some [] else none
    | _ => none
  | .Bool b, v =>
    match M.view v with
    | .bool b' => if b = b' then some [] else none
    | _ => none
  | .Char c, v =>
    match M.view v with
    | .char c' => if c = c' then some [] else none
    | _ => none
  | .Str s, v =>
    match M.view v with
    | .str s' => if s = s' then some [] else none
    | _ => none
  | .Alias inner s, v => (match_pat M inner v).map fun bindings => (s, v) :: bindings
  | .Ctor home ty variant args, v =>
    match M.view v with
    | .ctor home' ty' variant' parts =>
      if home = home' ∧ ty = ty' ∧ variant = variant' then match_all M args parts else none
    | _ => none
  | .Tuple elems, v =>
    match M.view v with
    | .tuple parts => match_all M elems parts
    | _ => none
  | .Record fields, v =>
    match M.view v with
    | .record parts => match_fields M fields parts
    | _ => none
  | .Slice leading rest, v =>
    match M.view v with
    | .list items =>
      (match_all M leading (items.take leading.length)).bind fun bindings =>
        (match_rest M rest (items.drop leading.length)).map fun more => bindings ++ more
    | _ => none
  | .Or alts, v => match_first M alts v

def match_all (M : Meaning κ V m) : List Pat → List V → Option (List (Symbol × V))
  | [], [] => some []
  | [], _ :: _ => none
  | _ :: _, [] => none
  | p :: ps, v :: vs =>
    (match_pat M p v).bind fun bindings => (match_all M ps vs).map fun more => bindings ++ more

def match_fields (M : Meaning κ V m) : List (Symbol × Pat) → List (Symbol × V) →
    Option (List (Symbol × V))
  | [], _ => some []
  | (field, p) :: fields, parts =>
    (parts.lookup field).bind fun v => (match_pat M p v).bind fun bindings =>
      (match_fields M fields parts).map fun more => bindings ++ more

/-- The rest of a list: without a pattern there is none. -/
def match_rest (M : Meaning κ V m) : Option Pat → List V → Option (List (Symbol × V))
  | none, items => if items.isEmpty then some [] else none
  | some p, items => match_pat M p (M.list items)

def match_first (M : Meaning κ V m) : List Pat → V → Option (List (Symbol × V))
  | [], _ => none
  | p :: ps, v => (match_pat M p v).or (match_first M ps v)

end

/-! ### Expressions -/

section

variable (M : Meaning κ V m) (calls : FuncId → List V → m V)

/-- A name in scope. -/
def look_up (env : Env V) (s : Symbol) : m V :=
  match env s with
  | some v => pure v
  | none => M.stuck

/-- The parameters of a function or a loop with their arguments. -/
def enter (params : List (Symbol × τ)) (env : Env V) (args : List V) : Option (Env V) :=
  if args.length = params.length then some (env.extend ((params.map Prod.fst).zip args)) else none

/-- A value that is called with as many arguments as it has parameters. -/
def closure (params : List (Symbol × τ)) (env : Env V) (body : Env V → m V) : V :=
  M.lam fun args =>
    match enter params env args with
    | some env' => body env'
    | none => M.stuck

def func_value : Callee κ → V
  | .Func id => M.lam (calls id)
  | .Kernel k => M.lam fun args => M.kernel k .None .NotForm (args.map pure)
  | .Ffi ident asserted => M.lam (M.ffi ident asserted)

mutual

def eval : Expr κ τ → Env V → m V
  | .Int n, _ => pure (M.int n)
  | .Bool b, _ => pure (M.bool b)
  | .Float bits, _ => pure (M.float bits)
  | .Str s, _ => pure (M.str s)
  | .CustomElementRef tag js_path, _ => pure (M.element tag js_path)
  | .Char c, _ => pure (M.char c)
  | .Unit, _ => pure M.unit
  | .Var s, env => look_up M env s
  | .CloneVar s, env => look_up M env s
  | .Ctor home ty variant args, env => do
    let vs ← eval_all args env
    pure (M.ctor home ty variant vs)
  | .BinOp op lhs rhs, env => M.binop op (eval lhs env) (eval rhs env)
  | .Let name value body, env => do
    let v ← eval value env
    eval body (env.extend [(name, v)])
  | .Destructure binder value body, env => do
    let v ← eval value env
    match match_pat M binder v with
    | some bindings => eval body (env.extend bindings)
    | none => M.stuck
  | .If cond then_ else_, env => do
    let c ← eval cond env
    let b ← M.truth c
    if b then eval then_ env else eval else_ env
  | .Match scrutinee arms, env => do
    let v ← eval scrutinee env
    eval_arms arms v env
  | .Call (.Func id) args _ _, env => do
    let vs ← eval_all args env
    calls id vs
  | .Call (.Kernel k) args pin on_form, env => M.kernel k pin on_form (eval_each args env)
  | .Call (.Ffi ident asserted) args _ _, env => do
    let vs ← eval_all args env
    M.ffi ident asserted vs
  | .Tuple items, env => do
    let vs ← eval_all items env
    pure (M.tuple vs)
  | .List _ items, env => do
    let vs ← eval_all items env
    pure (M.list vs)
  | .Cons head tail, env => do
    let h ← eval head env
    let t ← eval tail env
    M.cons h t
  | .ListIndexClone list index, env => do
    let v ← eval list env
    M.index v index
  | .ListLenCheck list len exact, env => do
    let v ← eval list env
    M.len_check v len exact
  | .Record fields _, env => do
    let vs ← eval_fields fields env
    pure (M.record vs)
  | .Access record field _, env => do
    let v ← eval record env
    M.access v field
  | .Update record fields, env => do
    let v ← eval record env
    let vs ← eval_fields fields env
    M.update v vs
  | .Lambda params _ body, env => pure (closure M params env (eval body))
  | .SharedLambda params _ body, env => pure (closure M params env (eval body))
  | .OnceLambda params _ body _, env => pure (closure M params env (eval body))
  | .Apply func args, env => do
    let f ← eval func env
    let vs ← eval_all args env
    M.apply f vs
  | .FuncValue callee _, _ => pure (func_value M calls callee)
  | .TaskSeq effect rest, env => do
    let v ← eval effect env
    M.task_seq v (eval rest env)
  -- A loop is the body of a function only, and a jump is in the tail of a loop only.
  | .TailLoop _ _, _ => M.stuck
  | .TailRecur _, _ => M.stuck

def eval_all : List (Expr κ τ) → Env V → m (List V)
  | [], _ => pure []
  | e :: es, env => do
    let v ← eval e env
    let vs ← eval_all es env
    pure (v :: vs)

def eval_each : List (Expr κ τ) → Env V → List (m V)
  | [], _ => []
  | e :: es, env => eval e env :: eval_each es env

def eval_fields : List (Symbol × Expr κ τ) → Env V → m (List (Symbol × V))
  | [], _ => pure []
  | (field, e) :: fields, env => do
    let v ← eval e env
    let vs ← eval_fields fields env
    pure ((field, v) :: vs)

/-- The first arm that matches and whose guard holds. -/
def eval_arms : List (Arm κ τ) → V → Env V → m V
  | [], _, _ => M.stuck
  | .mk pat body guard :: arms, v, env =>
    match match_pat M pat v with
    | none => eval_arms arms v env
    | some bindings => do
      let b ← eval_guard guard (env.extend bindings)
      if b then eval body (env.extend bindings) else eval_arms arms v env

def eval_guard : Option (Expr κ τ) → Env V → m Bool
  | none, _ => pure true
  | some guard, env => do
    let v ← eval guard env
    M.truth v

end

/-- How a turn of a loop ends. -/
inductive Turn (V : Type)
  | done (v : V)
  | jump (args : List V)

/-- A jump writes the variables of its loop by name: it reaches them when the turn has bound none of these
names again. -/
def writes (params : List (Symbol × τ)) (bound : Finset Symbol) : Bool :=
  params.all fun param => decide (param.1 ∉ bound)

section

variable (params : List (Symbol × τ))

mutual

/-- A turn of the loop over `params`, with the names that it has bound so far. -/
def eval_tail : Expr κ τ → (bound : Finset Symbol) → Env V → m (Turn V)
  | .If cond then_ else_, bound, env => do
    let c ← eval M calls cond env
    let b ← M.truth c
    if b then eval_tail then_ bound env else eval_tail else_ bound env
  | .Match scrutinee arms, bound, env => do
    let v ← eval M calls scrutinee env
    eval_tail_arms arms v bound env
  | .Let name value body, bound, env => do
    let v ← eval M calls value env
    eval_tail body (insert name bound) (env.extend [(name, v)])
  | .Destructure binder value body, bound, env => do
    let v ← eval M calls value env
    match match_pat M binder v with
    | some bindings => eval_tail body (pat_bound_symbols binder ∪ bound) (env.extend bindings)
    | none => M.stuck
  | .TailRecur args, bound, env => do
    let vs ← eval_all M calls args env
    -- A name of the turn is not mutable, and it is not the variable.
    if writes params bound then pure (.jump vs) else M.stuck
  | other, _, env => do
    let v ← eval M calls other env
    pure (.done v)

def eval_tail_arms : List (Arm κ τ) → V → (bound : Finset Symbol) → Env V → m (Turn V)
  | [], _, _, _ => M.stuck
  | .mk pat body guard :: arms, v, bound, env =>
    match match_pat M pat v with
    | none => eval_tail_arms arms v bound env
    | some bindings => do
      let b ← eval_guard M calls guard (env.extend bindings)
      if b then eval_tail body (pat_bound_symbols pat ∪ bound) (env.extend bindings)
      else eval_tail_arms arms v bound env

end

end

/-! ### Programs -/

def find_func (funcs : List (Func κ τ)) (id : FuncId) : Option (Func κ τ) :=
  funcs.find? fun f => f.id = id

variable (funcs : List (Func κ τ))

mutual

/-- A call of a function, with fuel. A body that is a loop is entered with the arguments as the values of
the variables of the loop. -/
def call : (fuel : ℕ) → FuncId → List V → m V
  | 0, _, _ => M.stuck
  | fuel + 1, id, args =>
    match find_func funcs id with
    | none => M.stuck
    | some f =>
      match enter f.params (fun _ => none) args with
      | none => M.stuck
      | some env =>
        match f.body with
        | .TailLoop params body => turns fuel params body env env
        | body => eval M (call fuel) body env
termination_by fuel => (fuel, 0)

/-- The turns of a loop. A jump gives new values to the variables of the loop, and leaves the scope of
the turn. -/
def turns : (fuel : ℕ) → List (Symbol × τ) → Expr κ τ → (scope env : Env V) → m V
  | fuel, params, body, scope, env => do
    let turn ← eval_tail M (call fuel) params body ∅ env
    match turn, fuel with
    | .done v, _ => pure v
    | .jump _, 0 => M.stuck
    | .jump args, fuel + 1 =>
      match enter params scope args with
      | none => M.stuck
      | some env => turns fuel params body scope env
termination_by fuel => (fuel, 1)

end

end

end IpeLang.Ir
