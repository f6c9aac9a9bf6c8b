import IpeLang.Ir.Meaning

/-!
# Free variables

* `free_vars`: the names that an expression reads from its environment;
* `each_binder`: a property of all binders of an expression;
* `eval_congr`: an expression means the same in environments that agree on its free variables.
-/

namespace IpeLang.Ir

variable {κ τ V : Type} {m : Type → Type} [Monad m]

/-- The names of parameters. -/
def param_names (params : List (Symbol × τ)) : Finset Symbol := (params.map Prod.fst).toFinset

mutual

def free_vars : Expr κ τ → Finset Symbol
  | .Int _ => ∅
  | .Bool _ => ∅
  | .Float _ => ∅
  | .Str _ => ∅
  | .CustomElementRef _ _ => ∅
  | .Char _ => ∅
  | .Unit => ∅
  | .FuncValue _ _ => ∅
  | .Var s => {s}
  | .CloneVar s => {s}
  | .Ctor _ _ _ args => free_vars_all args
  | .Call _ args _ _ => free_vars_all args
  | .TailRecur args => free_vars_all args
  | .BinOp _ lhs rhs => free_vars lhs ∪ free_vars rhs
  | .Let name value body => free_vars value ∪ (free_vars body).erase name
  | .Destructure binder value body => free_vars value ∪ (free_vars body \ pat_bound_symbols binder)
  | .If cond then_ else_ => free_vars cond ∪ (free_vars then_ ∪ free_vars else_)
  | .Match scrutinee arms => free_vars scrutinee ∪ free_vars_arms arms
  | .Tuple items => free_vars_all items
  | .List _ items => free_vars_all items
  | .Cons head tail => free_vars head ∪ free_vars tail
  | .ListIndexClone list _ => free_vars list
  | .ListLenCheck list _ _ => free_vars list
  | .Record fields _ => free_vars_fields fields
  | .Access record _ _ => free_vars record
  | .Update record fields => free_vars record ∪ free_vars_fields fields
  | .Lambda params _ body => free_vars body \ param_names params
  | .SharedLambda params _ body => free_vars body \ param_names params
  | .OnceLambda params _ body _ => free_vars body \ param_names params
  | .TailLoop params body => free_vars body \ param_names params
  | .Apply func args => free_vars func ∪ free_vars_all args
  | .TaskSeq effect rest => free_vars effect ∪ free_vars rest

def free_vars_all : List (Expr κ τ) → Finset Symbol
  | [] => ∅
  | e :: es => free_vars e ∪ free_vars_all es

def free_vars_fields : List (Symbol × Expr κ τ) → Finset Symbol
  | [] => ∅
  | (_, e) :: fields => free_vars e ∪ free_vars_fields fields

/-- A guard is part of its arm. -/
def free_vars_arms : List (Arm κ τ) → Finset Symbol
  | [] => ∅
  | .mk pat body guard :: arms =>
    ((free_vars body ∪ free_vars_guard guard) \ pat_bound_symbols pat) ∪ free_vars_arms arms

def free_vars_guard : Option (Expr κ τ) → Finset Symbol
  | none => ∅
  | some guard => free_vars guard

end

section

variable (P : Pat → Bool)

mutual

/-- All patterns that bind, and all names that are bound without one. -/
def each_binder : Expr κ τ → Bool
  | .Int _ => true
  | .Bool _ => true
  | .Float _ => true
  | .Str _ => true
  | .CustomElementRef _ _ => true
  | .Char _ => true
  | .Unit => true
  | .FuncValue _ _ => true
  | .Var _ => true
  | .CloneVar _ => true
  | .Ctor _ _ _ args => each_binder_all args
  | .Call _ args _ _ => each_binder_all args
  | .TailRecur args => each_binder_all args
  | .BinOp _ lhs rhs => each_binder lhs && each_binder rhs
  | .Let name value body => P (.Var name) && (each_binder value && each_binder body)
  | .Destructure binder value body => P binder && (each_binder value && each_binder body)
  | .If cond then_ else_ => each_binder cond && (each_binder then_ && each_binder else_)
  | .Match scrutinee arms => each_binder scrutinee && each_binder_arms arms
  | .Tuple items => each_binder_all items
  | .List _ items => each_binder_all items
  | .Cons head tail => each_binder head && each_binder tail
  | .ListIndexClone list _ => each_binder list
  | .ListLenCheck list _ _ => each_binder list
  | .Record fields _ => each_binder_fields fields
  | .Access record _ _ => each_binder record
  | .Update record fields => each_binder record && each_binder_fields fields
  | .Lambda params _ body => (params.all fun p => P (.Var p.1)) && each_binder body
  | .SharedLambda params _ body => (params.all fun p => P (.Var p.1)) && each_binder body
  | .OnceLambda params _ body _ => (params.all fun p => P (.Var p.1)) && each_binder body
  | .TailLoop params body => (params.all fun p => P (.Var p.1)) && each_binder body
  | .Apply func args => each_binder func && each_binder_all args
  | .TaskSeq effect rest => each_binder effect && each_binder rest

def each_binder_all : List (Expr κ τ) → Bool
  | [] => true
  | e :: es => each_binder e && each_binder_all es

def each_binder_fields : List (Symbol × Expr κ τ) → Bool
  | [] => true
  | (_, e) :: fields => each_binder e && each_binder_fields fields

def each_binder_arms : List (Arm κ τ) → Bool
  | [] => true
  | .mk pat body guard :: arms =>
    P pat && (each_binder_guard guard && (each_binder body && each_binder_arms arms))

def each_binder_guard : Option (Expr κ τ) → Bool
  | none => true
  | some guard => each_binder guard

end

end

/-! ### The names of a pattern -/

mutual

/-- The alternatives of a pattern bind the same names. -/
def uniform : Pat → Bool
  | .Var _ => true
  | .Wildcard => true
  | .Int _ => true
  | .Bool _ => true
  | .Char _ => true
  | .Str _ => true
  | .Alias inner _ => uniform inner
  | .Ctor _ _ _ args => uniform_all args
  | .Tuple elems => uniform_all elems
  | .Record fields => uniform_fields fields
  | .Slice leading rest => uniform_all leading && uniform_rest rest
  | .Or alts => uniform_alts (first_bound_symbols alts) alts

def uniform_all : List Pat → Bool
  | [] => true
  | p :: ps => uniform p && uniform_all ps

def uniform_fields : List (Symbol × Pat) → Bool
  | [] => true
  | (_, p) :: fields => uniform p && uniform_fields fields

def uniform_rest : Option Pat → Bool
  | none => true
  | some p => uniform p

def uniform_alts (names : Finset Symbol) : List Pat → Bool
  | [] => true
  | p :: ps => decide (pat_bound_symbols p = names) && (uniform p && uniform_alts names ps)

end

/-- The names of bindings. -/
def bound (bindings : List (Symbol × V)) : Finset Symbol := (bindings.map Prod.fst).toFinset

theorem bound_append (bindings more : List (Symbol × V)) :
    bound (bindings ++ more) = bound bindings ∪ bound more := by
  simp [bound]

theorem bound_literal {c : Prop} [Decidable c] {bindings : List (Symbol × V)}
    (h : (if c then some [] else none) = some bindings) : bound bindings = ∅ := by
  split_ifs at h
  obtain rfl := Option.some.inj h
  rfl

section

variable {M : Meaning κ V m}

mutual

/-- A match binds the names of its pattern. -/
theorem bound_match_pat (p : Pat) (hp : uniform p = true) (v : V) {bindings : List (Symbol × V)}
    (h : match_pat M p v = some bindings) : bound bindings = pat_bound_symbols p := by
  cases p with
  | Var s =>
    obtain rfl := Option.some.inj h
    rfl
  | Wildcard =>
    obtain rfl := Option.some.inj h
    rfl
  | Int n =>
    rw [match_pat] at h
    split at h
    · exact bound_literal h
    · cases h
  | Bool b =>
    rw [match_pat] at h
    split at h
    · exact bound_literal h
    · cases h
  | Char c =>
    rw [match_pat] at h
    split at h
    · exact bound_literal h
    · cases h
  | Str s =>
    rw [match_pat] at h
    split at h
    · exact bound_literal h
    · cases h
  | Alias inner s =>
    obtain ⟨inside, hinner, rfl⟩ := Option.map_eq_some_iff.1 h
    rw [pat_bound_symbols, ← bound_match_pat inner hp v hinner]
    simp [bound]
  | Ctor home ty variant args =>
    rw [match_pat] at h
    split at h
    · split_ifs at h
      exact bound_match_all args hp _ h
    · cases h
  | Tuple elems =>
    rw [match_pat] at h
    split at h
    · exact bound_match_all elems hp _ h
    · cases h
  | Record fields =>
    rw [match_pat] at h
    split at h
    · exact bound_match_fields fields hp _ h
    · cases h
  | Slice leading rest =>
    obtain ⟨hleading, hrest⟩ := Bool.and_eq_true_iff.1 hp
    rw [match_pat] at h
    split at h
    · obtain ⟨front, hfront, hthen⟩ := Option.bind_eq_some_iff.1 h
      obtain ⟨more, hmore, rfl⟩ := Option.map_eq_some_iff.1 hthen
      rw [bound_append, bound_match_all leading hleading _ hfront, bound_match_rest rest hrest _ hmore,
        pat_bound_symbols]
    · cases h
  | Or alts =>
    rw [pat_bound_symbols]
    exact bound_match_alts alts hp v h

theorem bound_match_all (ps : List Pat) (hps : uniform_all ps = true) (vs : List V)
    {bindings : List (Symbol × V)} (h : match_all M ps vs = some bindings) :
    bound bindings = all_bound_symbols ps := by
  cases ps with
  | nil =>
    cases vs with
    | nil =>
      obtain rfl := Option.some.inj h
      rfl
    | cons v vs => cases h
  | cons p ps =>
    obtain ⟨hp, hps⟩ := Bool.and_eq_true_iff.1 hps
    cases vs with
    | nil => cases h
    | cons v vs =>
      obtain ⟨front, hfront, hthen⟩ := Option.bind_eq_some_iff.1 h
      obtain ⟨more, hmore, rfl⟩ := Option.map_eq_some_iff.1 hthen
      rw [bound_append, bound_match_pat p hp v hfront, bound_match_all ps hps vs hmore,
        all_bound_symbols]

theorem bound_match_fields (fields : List (Symbol × Pat)) (hfields : uniform_fields fields = true)
    (parts : List (Symbol × V)) {bindings : List (Symbol × V)}
    (h : match_fields M fields parts = some bindings) :
    bound bindings = field_bound_symbols fields := by
  cases fields with
  | nil =>
    obtain rfl := Option.some.inj h
    rfl
  | cons entry fields =>
    obtain ⟨field, p⟩ := entry
    obtain ⟨hp, hfields⟩ := Bool.and_eq_true_iff.1 hfields
    obtain ⟨v, -, hrest⟩ := Option.bind_eq_some_iff.1 h
    obtain ⟨front, hfront, hthen⟩ := Option.bind_eq_some_iff.1 hrest
    obtain ⟨more, hmore, rfl⟩ := Option.map_eq_some_iff.1 hthen
    rw [bound_append, bound_match_pat p hp v hfront, bound_match_fields fields hfields parts hmore,
      field_bound_symbols]

theorem bound_match_rest (rest : Option Pat) (hrest : uniform_rest rest = true) (items : List V)
    {bindings : List (Symbol × V)} (h : match_rest M rest items = some bindings) :
    bound bindings = rest_bound_symbols rest := by
  cases rest with
  | none =>
    rw [match_rest] at h
    split_ifs at h
    obtain rfl := Option.some.inj h
    rfl
  | some p => exact bound_match_pat p hrest _ h

theorem bound_match_alts {names : Finset Symbol} (alts : List Pat)
    (halts : uniform_alts names alts = true) (v : V) {bindings : List (Symbol × V)}
    (h : match_first M alts v = some bindings) : bound bindings = names := by
  cases alts with
  | nil => cases h
  | cons p alts =>
    obtain ⟨hnames, hrest⟩ := Bool.and_eq_true_iff.1 halts
    obtain ⟨hp, halts⟩ := Bool.and_eq_true_iff.1 hrest
    rcases Option.or_eq_some_iff.1 h with hfirst | ⟨-, hlater⟩
    · rw [bound_match_pat p hp v hfirst]
      exact of_decide_eq_true hnames
    · exact bound_match_alts alts halts v hlater

end

end

/-! ### Environments that agree -/

/-- Two environments have the same values for these names. -/
def Agree (names : Finset Symbol) (env env' : Env V) : Prop := ∀ s ∈ names, env s = env' s

theorem Agree.mono {names names' : Finset Symbol} {env env' : Env V} (h : Agree names env env')
    (hsub : names' ⊆ names) : Agree names' env env' := fun s hs => h s (hsub hs)

theorem lookup_isSome {bindings : List (Symbol × V)} {s : Symbol} (hs : s ∈ bound bindings) :
    ∃ v, bindings.lookup s = some v := by
  cases hlookup : bindings.lookup s with
  | some v => exact ⟨v, rfl⟩
  | none =>
    obtain ⟨p, hp, rfl⟩ := List.mem_map.1 (List.mem_toFinset.1 hs)
    have hne := List.lookup_eq_none_iff.1 hlookup p hp
    simp at hne

theorem Agree.extend {names : Finset Symbol} {env env' : Env V} (bindings : List (Symbol × V))
    (h : Agree (names \ bound bindings) env env') :
    Agree names (env.extend bindings) (env'.extend bindings) := by
  intro s hs
  rw [Env.extend, Env.extend]
  by_cases hbound : s ∈ bound bindings
  · obtain ⟨v, hv⟩ := lookup_isSome hbound
    rw [hv]
    rfl
  · rw [h s (Finset.mem_sdiff.2 ⟨hs, hbound⟩)]

theorem bound_zip {params : List (Symbol × τ)} {args : List V} (h : args.length = params.length) :
    bound ((params.map Prod.fst).zip args) = param_names params := by
  rw [bound, param_names, List.map_fst_zip (by simp [h])]

/-- A call binds the parameters, whatever the environment. -/
theorem Agree.enter {params : List (Symbol × τ)} {names : Finset Symbol} {env env' : Env V}
    (h : Agree (names \ param_names params) env env') (args : List V) :
    (enter params env args = none ∧ enter params env' args = none) ∨
      ∃ inner inner', enter params env args = some inner ∧ enter params env' args = some inner' ∧
        Agree names inner inner' := by
  rw [Ir.enter, Ir.enter]
  by_cases hlen : args.length = params.length
  · rw [if_pos hlen, if_pos hlen]
    refine .inr ⟨_, _, rfl, rfl, .extend _ ?_⟩
    rwa [bound_zip hlen]
  · rw [if_neg hlen, if_neg hlen]
    exact .inl ⟨rfl, rfl⟩

section

variable {M : Meaning κ V m} {calls : FuncId → List V → m V}

theorem closure_congr {params : List (Symbol × τ)} {names : Finset Symbol} {env env' : Env V}
    {body body' : Env V → m V} (h : Agree (names \ param_names params) env env')
    (hbody : ∀ inner inner', Agree names inner inner' → body inner = body' inner') :
    closure M params env body = closure M params env' body' := by
  rw [closure, closure]
  congr 1
  funext args
  rcases h.enter args with ⟨hnone, hnone'⟩ | ⟨inner, inner', hsome, hsome', hagree⟩
  · rw [hnone, hnone']
  · rw [hsome, hsome']
    exact hbody inner inner' hagree

theorem agree_left {names names' : Finset Symbol} {env env' : Env V}
    (h : Agree (names ∪ names') env env') : Agree names env env' :=
  h.mono Finset.subset_union_left

theorem agree_right {names names' : Finset Symbol} {env env' : Env V}
    (h : Agree (names ∪ names') env env') : Agree names' env env' :=
  h.mono Finset.subset_union_right

theorem Agree.bind {names : Finset Symbol} {name : Symbol} {env env' : Env V}
    (h : Agree (names.erase name) env env') (v : V) :
    Agree names (env.extend [(name, v)]) (env'.extend [(name, v)]) := by
  refine .extend _ ?_
  have hbound : bound [(name, v)] = {name} := rfl
  rwa [hbound, Finset.sdiff_singleton_eq_erase]

theorem Agree.matched {pat : Pat} (hpat : uniform pat = true) {names : Finset Symbol} {env env' : Env V}
    (h : Agree (names \ pat_bound_symbols pat) env env') {v : V} {bindings : List (Symbol × V)}
    (hmatch : match_pat M pat v = some bindings) :
    Agree names (env.extend bindings) (env'.extend bindings) := by
  refine .extend _ ?_
  rwa [bound_match_pat pat hpat v hmatch]

mutual

/-- An expression means the same in environments that agree on its free variables. -/
theorem eval_congr (e : Expr κ τ) (huniform : each_binder uniform e = true) {env env' : Env V}
    (h : Agree (free_vars e) env env') : eval M calls e env = eval M calls e env' := by
  cases e with
  | Var s =>
    rw [eval, eval, look_up, look_up, h s (Finset.mem_singleton_self s)]
  | CloneVar s =>
    rw [eval, eval, look_up, look_up, h s (Finset.mem_singleton_self s)]
  | Ctor home ty variant args => rw [eval, eval, eval_all_congr args huniform h]
  | BinOp op lhs rhs =>
    obtain ⟨hlhs, hrhs⟩ := Bool.and_eq_true_iff.1 huniform
    rw [eval, eval, eval_congr lhs hlhs (agree_left h), eval_congr rhs hrhs (agree_right h)]
  | Let name value body =>
    obtain ⟨-, hrest⟩ := Bool.and_eq_true_iff.1 huniform
    obtain ⟨hvalue, hbody⟩ := Bool.and_eq_true_iff.1 hrest
    rw [eval, eval, eval_congr value hvalue (agree_left h)]
    exact bind_congr fun v => eval_congr body hbody ((agree_right h).bind v)
  | Destructure binder value body =>
    obtain ⟨hbinder, hrest⟩ := Bool.and_eq_true_iff.1 huniform
    obtain ⟨hvalue, hbody⟩ := Bool.and_eq_true_iff.1 hrest
    rw [eval, eval, eval_congr value hvalue (agree_left h)]
    refine bind_congr fun v => ?_
    cases hmatch : match_pat M binder v with
    | none => rfl
    | some bindings => exact eval_congr body hbody ((agree_right h).matched hbinder hmatch)
  | If cond then_ else_ =>
    obtain ⟨hcond, hrest⟩ := Bool.and_eq_true_iff.1 huniform
    obtain ⟨hthen, helse⟩ := Bool.and_eq_true_iff.1 hrest
    rw [eval, eval, eval_congr cond hcond (agree_left h),
      eval_congr then_ hthen (agree_left (agree_right h)),
      eval_congr else_ helse (agree_right (agree_right h))]
  | Match scrutinee arms =>
    obtain ⟨hscrutinee, harms⟩ := Bool.and_eq_true_iff.1 huniform
    rw [eval, eval, eval_congr scrutinee hscrutinee (agree_left h)]
    exact bind_congr fun v => eval_arms_congr arms harms v (agree_right h)
  | Call callee args pin on_form =>
    cases callee with
    | Func id => rw [eval, eval, eval_all_congr args huniform h]
    | Kernel k => rw [eval, eval, eval_each_congr args huniform h]
    | Ffi ident asserted => rw [eval, eval, eval_all_congr args huniform h]
  | Tuple items => rw [eval, eval, eval_all_congr items huniform h]
  | List elem items => rw [eval, eval, eval_all_congr items huniform h]
  | Cons head tail =>
    obtain ⟨hhead, htail⟩ := Bool.and_eq_true_iff.1 huniform
    rw [eval, eval, eval_congr head hhead (agree_left h), eval_congr tail htail (agree_right h)]
  | ListIndexClone list index => rw [eval, eval, eval_congr list huniform h]
  | ListLenCheck list len exact_ => rw [eval, eval, eval_congr list huniform h]
  | Record fields ty => rw [eval, eval, eval_fields_congr fields huniform h]
  | Access record field field_ty => rw [eval, eval, eval_congr record huniform h]
  | Update record fields =>
    obtain ⟨hrecord, hfields⟩ := Bool.and_eq_true_iff.1 huniform
    rw [eval, eval, eval_congr record hrecord (agree_left h),
      eval_fields_congr fields hfields (agree_right h)]
  | Lambda params ret body =>
    obtain ⟨-, hbody⟩ := Bool.and_eq_true_iff.1 huniform
    rw [eval, eval, closure_congr h fun _ _ hagree => eval_congr body hbody hagree]
  | SharedLambda params ret body =>
    obtain ⟨-, hbody⟩ := Bool.and_eq_true_iff.1 huniform
    rw [eval, eval, closure_congr h fun _ _ hagree => eval_congr body hbody hagree]
  | OnceLambda params ret body capture =>
    obtain ⟨-, hbody⟩ := Bool.and_eq_true_iff.1 huniform
    rw [eval, eval, closure_congr h fun _ _ hagree => eval_congr body hbody hagree]
  | Apply func args =>
    obtain ⟨hfunc, hargs⟩ := Bool.and_eq_true_iff.1 huniform
    rw [eval, eval, eval_congr func hfunc (agree_left h), eval_all_congr args hargs (agree_right h)]
  | TaskSeq effect rest =>
    obtain ⟨heffect, hrest⟩ := Bool.and_eq_true_iff.1 huniform
    rw [eval, eval, eval_congr effect heffect (agree_left h), eval_congr rest hrest (agree_right h)]
  | _ => rfl

theorem eval_all_congr (es : List (Expr κ τ)) (huniform : each_binder_all uniform es = true)
    {env env' : Env V} (h : Agree (free_vars_all es) env env') :
    eval_all M calls es env = eval_all M calls es env' := by
  cases es with
  | nil => rfl
  | cons e es =>
    obtain ⟨he, hes⟩ := Bool.and_eq_true_iff.1 huniform
    rw [eval_all, eval_all, eval_congr e he (agree_left h), eval_all_congr es hes (agree_right h)]

theorem eval_each_congr (es : List (Expr κ τ)) (huniform : each_binder_all uniform es = true)
    {env env' : Env V} (h : Agree (free_vars_all es) env env') :
    eval_each M calls es env = eval_each M calls es env' := by
  cases es with
  | nil => rfl
  | cons e es =>
    obtain ⟨he, hes⟩ := Bool.and_eq_true_iff.1 huniform
    rw [eval_each, eval_each, eval_congr e he (agree_left h), eval_each_congr es hes (agree_right h)]

theorem eval_fields_congr (fields : List (Symbol × Expr κ τ))
    (huniform : each_binder_fields uniform fields = true) {env env' : Env V}
    (h : Agree (free_vars_fields fields) env env') :
    eval_fields M calls fields env = eval_fields M calls fields env' := by
  cases fields with
  | nil => rfl
  | cons entry fields =>
    obtain ⟨field, e⟩ := entry
    obtain ⟨he, hfields⟩ := Bool.and_eq_true_iff.1 huniform
    rw [eval_fields, eval_fields, eval_congr e he (agree_left h),
      eval_fields_congr fields hfields (agree_right h)]

theorem eval_arms_congr (arms : List (Arm κ τ)) (huniform : each_binder_arms uniform arms = true)
    (v : V) {env env' : Env V} (h : Agree (free_vars_arms arms) env env') :
    eval_arms M calls arms v env = eval_arms M calls arms v env' := by
  cases arms with
  | nil => rfl
  | cons arm arms =>
    obtain ⟨pat, body, guard⟩ := arm
    obtain ⟨hpat, hrest⟩ := Bool.and_eq_true_iff.1 huniform
    obtain ⟨hguard, hrest⟩ := Bool.and_eq_true_iff.1 hrest
    obtain ⟨hbody, harms⟩ := Bool.and_eq_true_iff.1 hrest
    have hlater := eval_arms_congr arms harms v (agree_right h)
    rw [eval_arms, eval_arms]
    cases hmatch : match_pat M pat v with
    | none => exact hlater
    | some bindings =>
      have hagree : Agree _ (env.extend bindings) (env'.extend bindings) :=
        (agree_left h).matched hpat hmatch
      dsimp only
      rw [eval_guard_congr guard hguard (agree_right hagree),
        eval_congr body hbody (agree_left hagree), hlater]

theorem eval_guard_congr (guard : Option (Expr κ τ)) (huniform : each_binder_guard uniform guard = true)
    {env env' : Env V} (h : Agree (free_vars_guard guard) env env') :
    eval_guard M calls guard env = eval_guard M calls guard env' := by
  cases guard with
  | none => rfl
  | some guard => rw [eval_guard, eval_guard, eval_congr guard huniform h]

end

end

end IpeLang.Ir
