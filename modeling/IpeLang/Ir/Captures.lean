import IpeLang.Lib.LastLetter
import IpeLang.Ir.LetInline

/-!
# Closures inside of closures

A closure takes the names that it reads by value when it is built. One that is built in the body of
another would take them out of that, at every call. So it is given a fresh clone. The continuation of a
task is such a closure too.

* `paths`: the uses of a name on the ways through an expression;
* `force_shared_capture_clones`: a clone for each closure that reads the name;
* `no_capture_forced`: then no closure takes the name itself;
* `relayed_forced`: neither does one inside of it, at any depth.
-/

namespace IpeLang.Ir

open IpeLang.Lib

variable {κ τ : Type}

def pat_binds_symbol (pat : Pat) (target : Symbol) : Bool := pat_binds_target target pat

/-! ### The uses of a name -/

/-- A use of a name: it is read, a closure takes it, or it is cloned. -/
inductive Use
  | read
  | captured
  | cloned
  deriving DecidableEq

section

variable (reversed : κ → Bool)

/-- A kernel function whose container is evaluated before its function. -/
def Callee.evaluates_args_reversed : Callee κ → Bool
  | .Kernel k => reversed k
  | _ => false

variable (sym : Symbol)

mutual

/-- The uses of a name on each way through an expression, in the order in which they are evaluated. A
closure is built, not run. So is the continuation of a task: it takes the name, and runs once, later. -/
def paths : Expr κ τ → Ways Use
  | .Int _ => 1
  | .Bool _ => 1
  | .Float _ => 1
  | .Str _ => 1
  | .CustomElementRef _ _ => 1
  | .Char _ => 1
  | .Unit => 1
  | .FuncValue _ _ => 1
  | .Var s => if s = sym then .letter .read else 1
  | .CloneVar s => if s = sym then .letter .cloned else 1
  | .Lambda params _ body => if sym ∈ free_vars body \ param_names params then .letter .captured else 1
  | .SharedLambda params _ body => if sym ∈ free_vars body \ param_names params then .letter .captured else 1
  | .OnceLambda params _ body _ => if sym ∈ free_vars body \ param_names params then .letter .captured else 1
  | .Ctor _ _ _ args => paths_all args
  -- The right operand of a connective may be skipped.
  | .BinOp op lhs rhs =>
    paths lhs * (if op = .And ∨ op = .Or then 1 + paths rhs else paths rhs)
  | .Let name value body => paths value * (if name = sym then 1 else paths body)
  | .Destructure binder value body =>
    paths value * (if pat_binds_symbol binder sym then 1 else paths body)
  | .If cond then_ else_ => paths cond * (paths then_ + paths else_)
  | .Match scrutinee arms => paths scrutinee * paths_arms arms
  | .Call callee args _ _ =>
    if callee.evaluates_args_reversed reversed then paths_reversed args else paths_all args
  | .Tuple items => paths_all items
  | .List _ items => paths_all items
  | .Cons head tail => paths head * paths tail
  | .ListIndexClone list _ => paths list
  | .ListLenCheck list _ _ => paths list
  | .Record fields _ => paths_fields fields
  | .Access record _ _ => paths record
  -- The values of the fields are bound before the base is moved.
  | .Update record fields => paths_fields fields * paths record
  | .Apply func args => paths func * paths_all args
  | .TaskSeq effect rest =>
    paths effect * (if sym ∈ free_vars rest then .letter .captured else 1 : Ways Use).defer (paths rest)
  | .TailLoop params body => if binds_param sym params then 1 else KStar.kstar (paths body)
  | .TailRecur args => paths_all args

def paths_all : List (Expr κ τ) → Ways Use
  | [] => 1
  | e :: es => paths e * paths_all es

def paths_reversed : List (Expr κ τ) → Ways Use
  | [] => 1
  | e :: es => paths_reversed es * paths e

def paths_fields : List (Symbol × Expr κ τ) → Ways Use
  | [] => 1
  | (_, e) :: fields => paths e * paths_fields fields

/-- An arm whose guard fails has evaluated the guard. -/
def paths_arms : List (Arm κ τ) → Ways Use
  | [] => 0
  | .mk pat body guard :: arms =>
    (if pat_binds_symbol pat sym then 1 else paths_guard guard * paths body) +
      ((if pat_binds_symbol pat sym then 1 else paths_guard guard) * paths_arms arms +
        paths_arms arms)

def paths_guard : Option (Expr κ τ) → Ways Use
  | none => 1
  | some guard => paths guard

end

end

/-! ### The rewrite -/

section

variable (sym : Symbol)

mutual

/-- The name is read, in no closure below. Guards are not looked at. -/
def sym_referenced_directly : Expr κ τ → Bool
  | .Var s => s == sym
  | .CloneVar s => s == sym
  | .Let name value body =>
    sym_referenced_directly value || (!(name == sym) && sym_referenced_directly body)
  | .Destructure binder value body =>
    sym_referenced_directly value || (!pat_binds_symbol binder sym && sym_referenced_directly body)
  | .Match scrutinee arms => sym_referenced_directly scrutinee || arms_referenced_directly arms
  | .TailLoop params body => !binds_param sym params && sym_referenced_directly body
  | .BinOp _ lhs rhs => sym_referenced_directly lhs || sym_referenced_directly rhs
  | .If cond then_ else_ =>
    sym_referenced_directly cond || (sym_referenced_directly then_ || sym_referenced_directly else_)
  | .Call _ args _ _ => all_referenced_directly args
  | .Apply func args => sym_referenced_directly func || all_referenced_directly args
  | .Tuple items => all_referenced_directly items
  | .List _ items => all_referenced_directly items
  | .Cons head tail => sym_referenced_directly head || sym_referenced_directly tail
  | .ListIndexClone list _ => sym_referenced_directly list
  | .ListLenCheck list _ _ => sym_referenced_directly list
  | .Record fields _ => fields_referenced_directly fields
  | .Update record fields => sym_referenced_directly record || fields_referenced_directly fields
  | .Ctor _ _ _ args => all_referenced_directly args
  | .TaskSeq effect rest => sym_referenced_directly effect || sym_referenced_directly rest
  | .TailRecur args => all_referenced_directly args
  | .Access record _ _ => sym_referenced_directly record
  | .Lambda _ _ _ => false
  | .SharedLambda _ _ _ => false
  | .OnceLambda _ _ _ _ => false
  | .Int _ => false
  | .Bool _ => false
  | .Float _ => false
  | .Str _ => false
  | .CustomElementRef _ _ => false
  | .Char _ => false
  | .Unit => false
  | .FuncValue _ _ => false

def all_referenced_directly : List (Expr κ τ) → Bool
  | [] => false
  | e :: es => sym_referenced_directly e || all_referenced_directly es

def fields_referenced_directly : List (Symbol × Expr κ τ) → Bool
  | [] => false
  | (_, e) :: fields => sym_referenced_directly e || fields_referenced_directly fields

def arms_referenced_directly : List (Arm κ τ) → Bool
  | [] => false
  | .mk pat body _ :: arms =>
    (!pat_binds_symbol pat sym && sym_referenced_directly body) || arms_referenced_directly arms

end

/-- A closure with the body that was processed, under a clone if its body reads the name. -/
def wrap_shared_lambda_if_needed (shadowed : Bool) (body rebuilt : Expr κ τ) : Expr κ τ :=
  if shadowed || !sym_referenced_directly sym body then rebuilt else .Let sym (.CloneVar sym) rebuilt

/-- The continuation of a task is a closure of the emitted program. -/
def wrap_task_seq_rest_capture (effect rest : Expr κ τ) : Expr κ τ :=
  if sym_referenced_directly sym rest then .Let sym (.CloneVar sym) (.TaskSeq effect rest)
  else .TaskSeq effect rest

mutual

def force_shared_capture_clones : Expr κ τ → Expr κ τ
  | .Var s => .Var s
  | .CloneVar s => .CloneVar s
  | .Int n => .Int n
  | .Bool b => .Bool b
  | .Float bits => .Float bits
  | .Str s => .Str s
  | .CustomElementRef tag js_path => .CustomElementRef tag js_path
  | .Char c => .Char c
  | .Unit => .Unit
  | .FuncValue callee ty => .FuncValue callee ty
  | .Lambda params ret body =>
    let body' := if binds_param sym params then body else force_shared_capture_clones body
    wrap_shared_lambda_if_needed sym (binds_param sym params) body' (.Lambda params ret body')
  | .SharedLambda params ret body =>
    let body' := if binds_param sym params then body else force_shared_capture_clones body
    wrap_shared_lambda_if_needed sym (binds_param sym params) body' (.SharedLambda params ret body')
  | .OnceLambda params ret body capture =>
    let body' := if binds_param sym params then body else force_shared_capture_clones body
    wrap_shared_lambda_if_needed sym (binds_param sym params) body' (.OnceLambda params ret body' capture)
  | .Let name value body =>
    .Let name (force_shared_capture_clones value)
      (if name == sym then body else force_shared_capture_clones body)
  | .Destructure binder value body =>
    .Destructure binder (force_shared_capture_clones value)
      (if pat_binds_symbol binder sym then body else force_shared_capture_clones body)
  | .Match scrutinee arms =>
    .Match (force_shared_capture_clones scrutinee) (force_shared_capture_clones_arms arms)
  | .TailLoop params body =>
    .TailLoop params (if binds_param sym params then body else force_shared_capture_clones body)
  | .BinOp op lhs rhs => .BinOp op (force_shared_capture_clones lhs) (force_shared_capture_clones rhs)
  | .If cond then_ else_ =>
    .If (force_shared_capture_clones cond) (force_shared_capture_clones then_)
      (force_shared_capture_clones else_)
  | .Call callee args pin on_form => .Call callee (force_shared_capture_clones_all args) pin on_form
  | .Apply func args => .Apply (force_shared_capture_clones func) (force_shared_capture_clones_all args)
  | .Tuple items => .Tuple (force_shared_capture_clones_all items)
  | .List elem items => .List elem (force_shared_capture_clones_all items)
  | .Cons head tail => .Cons (force_shared_capture_clones head) (force_shared_capture_clones tail)
  | .ListIndexClone list index => .ListIndexClone (force_shared_capture_clones list) index
  | .ListLenCheck list len exact => .ListLenCheck (force_shared_capture_clones list) len exact
  | .Record fields ty => .Record (force_shared_capture_clones_fields fields) ty
  | .Access record field field_ty => .Access (force_shared_capture_clones record) field field_ty
  | .Update record fields =>
    .Update (force_shared_capture_clones record) (force_shared_capture_clones_fields fields)
  | .Ctor home ty variant args => .Ctor home ty variant (force_shared_capture_clones_all args)
  | .TaskSeq effect rest =>
    wrap_task_seq_rest_capture sym (force_shared_capture_clones effect) (force_shared_capture_clones rest)
  | .TailRecur args => .TailRecur (force_shared_capture_clones_all args)

def force_shared_capture_clones_all : List (Expr κ τ) → List (Expr κ τ)
  | [] => []
  | e :: es => force_shared_capture_clones e :: force_shared_capture_clones_all es

def force_shared_capture_clones_fields : List (Symbol × Expr κ τ) → List (Symbol × Expr κ τ)
  | [] => []
  | (name, e) :: fields => (name, force_shared_capture_clones e) :: force_shared_capture_clones_fields fields

def force_shared_capture_clones_arms : List (Arm κ τ) → List (Arm κ τ)
  | [] => []
  | .mk pat body guard :: arms =>
    .mk pat (if pat_binds_symbol pat sym then body else force_shared_capture_clones body) guard ::
      force_shared_capture_clones_arms arms

end

end

/-! ### What is free after the rewrite -/

section

variable (sym : Symbol)

mutual

/-- No guard reads the name. Nothing is asked of a scope that binds it again. -/
def unguarded : Expr κ τ → Bool
  | .Let name value body => unguarded value && (name == sym || unguarded body)
  | .Destructure binder value body => unguarded value && (pat_binds_symbol binder sym || unguarded body)
  | .Match scrutinee arms => unguarded scrutinee && unguarded_arms arms
  | .TailLoop params body => binds_param sym params || unguarded body
  | .Lambda params _ body => binds_param sym params || unguarded body
  | .SharedLambda params _ body => binds_param sym params || unguarded body
  | .OnceLambda params _ body _ => binds_param sym params || unguarded body
  | .BinOp _ lhs rhs => unguarded lhs && unguarded rhs
  | .If cond then_ else_ => unguarded cond && (unguarded then_ && unguarded else_)
  | .Call _ args _ _ => unguarded_all args
  | .Apply func args => unguarded func && unguarded_all args
  | .Tuple items => unguarded_all items
  | .List _ items => unguarded_all items
  | .Cons head tail => unguarded head && unguarded tail
  | .ListIndexClone list _ => unguarded list
  | .ListLenCheck list _ _ => unguarded list
  | .Record fields _ => unguarded_fields fields
  | .Access record _ _ => unguarded record
  | .Update record fields => unguarded record && unguarded_fields fields
  | .Ctor _ _ _ args => unguarded_all args
  | .TaskSeq effect rest => unguarded effect && unguarded rest
  | .TailRecur args => unguarded_all args
  | _ => true

def unguarded_all : List (Expr κ τ) → Bool
  | [] => true
  | e :: es => unguarded e && unguarded_all es

def unguarded_fields : List (Symbol × Expr κ τ) → Bool
  | [] => true
  | (_, e) :: fields => unguarded e && unguarded_fields fields

def unguarded_arms : List (Arm κ τ) → Bool
  | [] => true
  | .mk pat body guard :: arms =>
    (pat_binds_symbol pat sym || (decide (sym ∉ free_vars_guard guard) && unguarded body)) &&
      unguarded_arms arms

end

end

/-- A pattern does not bind the name, and its alternatives bind the same names. -/
def unbound (sym : Symbol) (p : Pat) : Bool := uniform p && decide (sym ∉ pat_bound_symbols p)

section

variable {sym : Symbol}

theorem not_mem_bound {p : Pat} (h : unbound sym p = true) : sym ∉ pat_bound_symbols p :=
  of_decide_eq_true (Bool.and_eq_true_iff.1 h).2

theorem not_bound {p : Pat} (h : unbound sym p = true) : pat_binds_symbol p sym = false :=
  Bool.eq_false_iff.2 fun hbinds =>
    not_mem_bound h ((pat_binds_target_iff p (Bool.and_eq_true_iff.1 h).1).1 hbinds)

theorem not_named {name : Symbol} (h : unbound sym (.Var name) = true) : name ≠ sym := fun hname =>
  not_mem_bound h (Finset.mem_singleton.2 hname.symm)

theorem not_param {params : List (Symbol × τ)} (h : (params.all fun p => unbound sym (.Var p.1)) = true) :
    sym ∉ param_names params := by
  intro hmem
  obtain ⟨p, hp, rfl⟩ := List.mem_map.1 (List.mem_toFinset.1 hmem)
  exact not_mem_bound (List.all_eq_true.1 h p hp) (Finset.mem_singleton_self p.1)

theorem not_binds_param {params : List (Symbol × τ)}
    (h : (params.all fun p => unbound sym (.Var p.1)) = true) : binds_param sym params = false :=
  Bool.eq_false_iff.2 fun hbinds => not_param h (binds_param_iff.1 hbinds)

/-- Nothing hides a name that is free in the body. -/
theorem not_free_body {params : List (Symbol × τ)} {body : Expr κ τ}
    (hparams : (params.all fun p => unbound sym (.Var p.1)) = true)
    (h : sym ∉ free_vars body \ param_names params) : sym ∉ free_vars body := fun hfree =>
  h (Finset.mem_sdiff.2 ⟨hfree, not_param hparams⟩)

theorem not_shadowed {binds : Bool} {c : Bool} (hbinds : binds = false) (h : (binds || c) = true) :
    c = true := by
  rwa [hbinds, Bool.false_or] at h

theorem direct_of_free_wrapped {shadowed : Bool} {body rebuilt : Expr κ τ}
    (h : sym ∈ free_vars (wrap_shared_lambda_if_needed sym shadowed body rebuilt))
    (hrebuilt : sym ∈ free_vars rebuilt → shadowed = false ∧ sym_referenced_directly sym body = true) :
    sym_referenced_directly sym (wrap_shared_lambda_if_needed sym shadowed body rebuilt) = true := by
  rw [wrap_shared_lambda_if_needed] at h ⊢
  split_ifs at h ⊢ with hwrap
  · obtain ⟨hshadowed, hdirect⟩ := hrebuilt h
    rw [hshadowed, hdirect] at hwrap
    cases hwrap
  · simp [sym_referenced_directly]

/-- The body of a closure, as it is processed. -/
theorem direct_of_free_closure {params : List (Symbol × τ)} {body : Expr κ τ}
    (hguard : (binds_param sym params || unguarded sym body) = true)
    (h : sym ∈ free_vars (if binds_param sym params then body else
      force_shared_capture_clones sym body) \ param_names params)
    (hbody : unguarded sym body = true → sym ∈ free_vars (force_shared_capture_clones sym body) →
      sym_referenced_directly sym (force_shared_capture_clones sym body) = true) :
    binds_param sym params = false ∧ sym_referenced_directly sym
      (if binds_param sym params then body else force_shared_capture_clones sym body) = true := by
  obtain ⟨hfree, hnot⟩ := Finset.mem_sdiff.1 h
  have hbinds : binds_param sym params = false :=
    Bool.eq_false_iff.2 fun hbinds => hnot (binds_param_iff.1 hbinds)
  rw [hbinds] at hguard hfree ⊢
  exact ⟨rfl, hbody hguard hfree⟩

mutual

/-- After the rewrite each free read is a direct one: a closure that reads the name is under a clone. -/
theorem direct_of_free_forced (e : Expr κ τ) (hbind : each_binder (unbound sym) e = true)
    (hguard : unguarded sym e = true) (h : sym ∈ free_vars (force_shared_capture_clones sym e)) :
    sym_referenced_directly sym (force_shared_capture_clones sym e) = true := by
  cases e with
  | Var s => exact beq_iff_eq.2 (Finset.mem_singleton.1 h).symm
  | CloneVar s => exact beq_iff_eq.2 (Finset.mem_singleton.1 h).symm
  | Lambda params ret body =>
    obtain ⟨-, hbody⟩ := Bool.and_eq_true_iff.1 hbind
    refine direct_of_free_wrapped h fun hfree => ?_
    exact direct_of_free_closure hguard hfree (direct_of_free_forced body hbody)
  | SharedLambda params ret body =>
    obtain ⟨-, hbody⟩ := Bool.and_eq_true_iff.1 hbind
    refine direct_of_free_wrapped h fun hfree => ?_
    exact direct_of_free_closure hguard hfree (direct_of_free_forced body hbody)
  | OnceLambda params ret body capture =>
    obtain ⟨-, hbody⟩ := Bool.and_eq_true_iff.1 hbind
    refine direct_of_free_wrapped h fun hfree => ?_
    exact direct_of_free_closure hguard hfree (direct_of_free_forced body hbody)
  | Let name value body =>
    obtain ⟨hname, hbind⟩ := Bool.and_eq_true_iff.1 hbind
    obtain ⟨hvalue, hbody⟩ := Bool.and_eq_true_iff.1 hbind
    obtain ⟨hgvalue, hgbody⟩ := Bool.and_eq_true_iff.1 hguard
    have hne : (name == sym) = false := beq_eq_false_iff_ne.2 (not_named hname)
    rw [force_shared_capture_clones, hne] at h ⊢
    rw [sym_referenced_directly, hne, Bool.or_eq_true]
    rcases Finset.mem_union.1 h with h | h
    · exact .inl (direct_of_free_forced value hvalue hgvalue h)
    · exact .inr (direct_of_free_forced body hbody (not_shadowed hne hgbody) (Finset.mem_erase.1 h).2)
  | Destructure binder value body =>
    obtain ⟨hbinder, hbind⟩ := Bool.and_eq_true_iff.1 hbind
    obtain ⟨hvalue, hbody⟩ := Bool.and_eq_true_iff.1 hbind
    obtain ⟨hgvalue, hgbody⟩ := Bool.and_eq_true_iff.1 hguard
    have hbinds := not_bound hbinder
    rw [force_shared_capture_clones, hbinds] at h ⊢
    rw [sym_referenced_directly, hbinds, Bool.or_eq_true]
    rcases Finset.mem_union.1 h with h | h
    · exact .inl (direct_of_free_forced value hvalue hgvalue h)
    · exact .inr (direct_of_free_forced body hbody (not_shadowed hbinds hgbody) (Finset.mem_sdiff.1 h).1)
  | Match scrutinee arms =>
    obtain ⟨hscrutinee, harms⟩ := Bool.and_eq_true_iff.1 hbind
    obtain ⟨hgscrutinee, hgarms⟩ := Bool.and_eq_true_iff.1 hguard
    rw [force_shared_capture_clones, sym_referenced_directly, Bool.or_eq_true]
    exact (Finset.mem_union.1 h).imp (direct_of_free_forced scrutinee hscrutinee hgscrutinee)
      (direct_of_free_arms arms harms hgarms)
  | TailLoop params body =>
    obtain ⟨-, hbody⟩ := Bool.and_eq_true_iff.1 hbind
    obtain ⟨hbinds, hdirect⟩ := direct_of_free_closure hguard h (direct_of_free_forced body hbody)
    rw [force_shared_capture_clones, sym_referenced_directly, hbinds]
    rwa [hbinds] at hdirect
  | BinOp op lhs rhs =>
    obtain ⟨hlhs, hrhs⟩ := Bool.and_eq_true_iff.1 hbind
    obtain ⟨hglhs, hgrhs⟩ := Bool.and_eq_true_iff.1 hguard
    rw [force_shared_capture_clones, sym_referenced_directly, Bool.or_eq_true]
    exact (Finset.mem_union.1 h).imp (direct_of_free_forced lhs hlhs hglhs)
      (direct_of_free_forced rhs hrhs hgrhs)
  | If cond then_ else_ =>
    obtain ⟨hcond, hbind⟩ := Bool.and_eq_true_iff.1 hbind
    obtain ⟨hthen, helse⟩ := Bool.and_eq_true_iff.1 hbind
    obtain ⟨hgcond, hguard⟩ := Bool.and_eq_true_iff.1 hguard
    obtain ⟨hgthen, hgelse⟩ := Bool.and_eq_true_iff.1 hguard
    rw [force_shared_capture_clones, sym_referenced_directly, Bool.or_eq_true, Bool.or_eq_true]
    refine (Finset.mem_union.1 h).imp (direct_of_free_forced cond hcond hgcond) fun h => ?_
    exact (Finset.mem_union.1 h).imp (direct_of_free_forced then_ hthen hgthen)
      (direct_of_free_forced else_ helse hgelse)
  | Call callee args pin on_form => exact direct_of_free_all args hbind hguard h
  | Apply func args =>
    obtain ⟨hfunc, hargs⟩ := Bool.and_eq_true_iff.1 hbind
    obtain ⟨hgfunc, hgargs⟩ := Bool.and_eq_true_iff.1 hguard
    rw [force_shared_capture_clones, sym_referenced_directly, Bool.or_eq_true]
    exact (Finset.mem_union.1 h).imp (direct_of_free_forced func hfunc hgfunc)
      (direct_of_free_all args hargs hgargs)
  | Tuple items => exact direct_of_free_all items hbind hguard h
  | List elem items => exact direct_of_free_all items hbind hguard h
  | Cons head tail =>
    obtain ⟨hhead, htail⟩ := Bool.and_eq_true_iff.1 hbind
    obtain ⟨hghead, hgtail⟩ := Bool.and_eq_true_iff.1 hguard
    rw [force_shared_capture_clones, sym_referenced_directly, Bool.or_eq_true]
    exact (Finset.mem_union.1 h).imp (direct_of_free_forced head hhead hghead)
      (direct_of_free_forced tail htail hgtail)
  | ListIndexClone list index => exact direct_of_free_forced list hbind hguard h
  | ListLenCheck list len exact_ => exact direct_of_free_forced list hbind hguard h
  | Record fields ty => exact direct_of_free_fields fields hbind hguard h
  | Access record field field_ty => exact direct_of_free_forced record hbind hguard h
  | Update record fields =>
    obtain ⟨hrecord, hfields⟩ := Bool.and_eq_true_iff.1 hbind
    obtain ⟨hgrecord, hgfields⟩ := Bool.and_eq_true_iff.1 hguard
    rw [force_shared_capture_clones, sym_referenced_directly, Bool.or_eq_true]
    exact (Finset.mem_union.1 h).imp (direct_of_free_forced record hrecord hgrecord)
      (direct_of_free_fields fields hfields hgfields)
  | Ctor home ty variant args => exact direct_of_free_all args hbind hguard h
  | TaskSeq effect rest =>
    obtain ⟨heffect, hrest⟩ := Bool.and_eq_true_iff.1 hbind
    obtain ⟨hgeffect, hgrest⟩ := Bool.and_eq_true_iff.1 hguard
    rw [force_shared_capture_clones, wrap_task_seq_rest_capture] at h ⊢
    split_ifs at h ⊢ with hdirect
    · simp [sym_referenced_directly]
    · rw [sym_referenced_directly, Bool.or_eq_true]
      exact (Finset.mem_union.1 h).imp (direct_of_free_forced effect heffect hgeffect)
        (direct_of_free_forced rest hrest hgrest)
  | TailRecur args => exact direct_of_free_all args hbind hguard h
  | _ => cases h

theorem direct_of_free_all (es : List (Expr κ τ)) (hbind : each_binder_all (unbound sym) es = true)
    (hguard : unguarded_all sym es = true)
    (h : sym ∈ free_vars_all (force_shared_capture_clones_all sym es)) :
    all_referenced_directly sym (force_shared_capture_clones_all sym es) = true := by
  cases es with
  | nil => cases h
  | cons e es =>
    obtain ⟨he, hes⟩ := Bool.and_eq_true_iff.1 hbind
    obtain ⟨hge, hges⟩ := Bool.and_eq_true_iff.1 hguard
    rw [force_shared_capture_clones_all, all_referenced_directly, Bool.or_eq_true]
    exact (Finset.mem_union.1 h).imp (direct_of_free_forced e he hge) (direct_of_free_all es hes hges)

theorem direct_of_free_fields (fields : List (Symbol × Expr κ τ))
    (hbind : each_binder_fields (unbound sym) fields = true) (hguard : unguarded_fields sym fields = true)
    (h : sym ∈ free_vars_fields (force_shared_capture_clones_fields sym fields)) :
    fields_referenced_directly sym (force_shared_capture_clones_fields sym fields) = true := by
  cases fields with
  | nil => cases h
  | cons entry fields =>
    obtain ⟨field, e⟩ := entry
    obtain ⟨he, hfields⟩ := Bool.and_eq_true_iff.1 hbind
    obtain ⟨hge, hgfields⟩ := Bool.and_eq_true_iff.1 hguard
    rw [force_shared_capture_clones_fields, fields_referenced_directly, Bool.or_eq_true]
    exact (Finset.mem_union.1 h).imp (direct_of_free_forced e he hge)
      (direct_of_free_fields fields hfields hgfields)

theorem direct_of_free_arms (arms : List (Arm κ τ)) (hbind : each_binder_arms (unbound sym) arms = true)
    (hguard : unguarded_arms sym arms = true)
    (h : sym ∈ free_vars_arms (force_shared_capture_clones_arms sym arms)) :
    arms_referenced_directly sym (force_shared_capture_clones_arms sym arms) = true := by
  cases arms with
  | nil => cases h
  | cons arm arms =>
    obtain ⟨pat, body, guard⟩ := arm
    obtain ⟨hpat, hbind⟩ := Bool.and_eq_true_iff.1 hbind
    obtain ⟨-, hbind⟩ := Bool.and_eq_true_iff.1 hbind
    obtain ⟨hbody, harms⟩ := Bool.and_eq_true_iff.1 hbind
    obtain ⟨hguard, hgarms⟩ := Bool.and_eq_true_iff.1 hguard
    have hbinds := not_bound hpat
    obtain ⟨hgguard, hgbody⟩ := Bool.and_eq_true_iff.1 (not_shadowed hbinds hguard)
    rw [force_shared_capture_clones_arms, hbinds] at h ⊢
    rw [arms_referenced_directly, hbinds, Bool.or_eq_true]
    rcases Finset.mem_union.1 h with h | h
    · rcases Finset.mem_union.1 (Finset.mem_sdiff.1 h).1 with h | h
      · exact .inl (direct_of_free_forced body hbody hgbody h)
      · exact absurd h (of_decide_eq_true hgguard)
    · exact .inr (direct_of_free_arms arms harms hgarms h)

end

/-! ### A name that is not free -/

section

variable {reversed : κ → Bool}

theorem silent_closure {sym : Symbol} {names : Finset Symbol} (h : sym ∉ names) :
    Silent (if sym ∈ names then .letter Use.captured else (1 : Ways Use)) := by
  rw [if_neg h]
  exact silent_one

mutual

/-- A name that is not free is not used. -/
theorem silent_of_not_free (e : Expr κ τ) (hbind : each_binder (unbound sym) e = true)
    (h : sym ∉ free_vars e) : Silent (paths reversed sym e) := by
  cases e with
  | Var s =>
    rw [paths, if_neg fun hs => h (Finset.mem_singleton.2 hs.symm)]
    exact silent_one
  | CloneVar s =>
    rw [paths, if_neg fun hs => h (Finset.mem_singleton.2 hs.symm)]
    exact silent_one
  | Lambda params ret body => exact silent_closure h
  | SharedLambda params ret body => exact silent_closure h
  | OnceLambda params ret body capture => exact silent_closure h
  | Let name value body =>
    obtain ⟨hname, hbind⟩ := Bool.and_eq_true_iff.1 hbind
    obtain ⟨hvalue, hbody⟩ := Bool.and_eq_true_iff.1 hbind
    obtain ⟨h₁, h₂⟩ := Finset.notMem_union.1 h
    refine (silent_of_not_free value hvalue h₁).mul ?_
    rw [if_neg (not_named hname)]
    refine silent_of_not_free body hbody fun hfree => h₂ ?_
    exact Finset.mem_erase.2 ⟨(not_named hname).symm, hfree⟩
  | Destructure binder value body =>
    obtain ⟨hbinder, hbind⟩ := Bool.and_eq_true_iff.1 hbind
    obtain ⟨hvalue, hbody⟩ := Bool.and_eq_true_iff.1 hbind
    obtain ⟨h₁, h₂⟩ := Finset.notMem_union.1 h
    refine (silent_of_not_free value hvalue h₁).mul ?_
    rw [not_bound hbinder]
    refine silent_of_not_free body hbody fun hfree => h₂ ?_
    exact Finset.mem_sdiff.2 ⟨hfree, not_mem_bound hbinder⟩
  | Match scrutinee arms =>
    obtain ⟨hscrutinee, harms⟩ := Bool.and_eq_true_iff.1 hbind
    obtain ⟨h₁, h₂⟩ := Finset.notMem_union.1 h
    exact (silent_of_not_free scrutinee hscrutinee h₁).mul (silent_arms arms harms h₂)
  | TailLoop params body =>
    obtain ⟨hparams, hbody⟩ := Bool.and_eq_true_iff.1 hbind
    rw [paths, not_binds_param hparams]
    exact (silent_of_not_free body hbody (not_free_body hparams h)).kstar
  | BinOp op lhs rhs =>
    obtain ⟨hlhs, hrhs⟩ := Bool.and_eq_true_iff.1 hbind
    obtain ⟨h₁, h₂⟩ := Finset.notMem_union.1 h
    have hright := silent_of_not_free rhs hrhs h₂
    refine (silent_of_not_free lhs hlhs h₁).mul ?_
    split_ifs
    · exact silent_one.add hright
    · exact hright
  | If cond then_ else_ =>
    obtain ⟨hcond, hbind⟩ := Bool.and_eq_true_iff.1 hbind
    obtain ⟨hthen, helse⟩ := Bool.and_eq_true_iff.1 hbind
    obtain ⟨h₁, h⟩ := Finset.notMem_union.1 h
    obtain ⟨h₂, h₃⟩ := Finset.notMem_union.1 h
    exact (silent_of_not_free cond hcond h₁).mul
      ((silent_of_not_free then_ hthen h₂).add (silent_of_not_free else_ helse h₃))
  | Call callee args pin on_form =>
    rw [paths]
    split_ifs
    · exact silent_reversed args hbind h
    · exact silent_all args hbind h
  | Apply func args =>
    obtain ⟨hfunc, hargs⟩ := Bool.and_eq_true_iff.1 hbind
    obtain ⟨h₁, h₂⟩ := Finset.notMem_union.1 h
    exact (silent_of_not_free func hfunc h₁).mul (silent_all args hargs h₂)
  | Tuple items => exact silent_all items hbind h
  | List elem items => exact silent_all items hbind h
  | Cons head tail =>
    obtain ⟨hhead, htail⟩ := Bool.and_eq_true_iff.1 hbind
    obtain ⟨h₁, h₂⟩ := Finset.notMem_union.1 h
    exact (silent_of_not_free head hhead h₁).mul (silent_of_not_free tail htail h₂)
  | ListIndexClone list index => exact silent_of_not_free list hbind h
  | ListLenCheck list len exact_ => exact silent_of_not_free list hbind h
  | Record fields ty => exact silent_fields fields hbind h
  | Access record field field_ty => exact silent_of_not_free record hbind h
  | Update record fields =>
    obtain ⟨hrecord, hfields⟩ := Bool.and_eq_true_iff.1 hbind
    obtain ⟨h₁, h₂⟩ := Finset.notMem_union.1 h
    exact (silent_fields fields hfields h₂).mul (silent_of_not_free record hrecord h₁)
  | Ctor home ty variant args => exact silent_all args hbind h
  | TaskSeq effect rest =>
    obtain ⟨heffect, hrest⟩ := Bool.and_eq_true_iff.1 hbind
    obtain ⟨h₁, h₂⟩ := Finset.notMem_union.1 h
    exact (silent_of_not_free effect heffect h₁).mul
      ((silent_closure h₂).defer (silent_of_not_free rest hrest h₂))
  | TailRecur args => exact silent_all args hbind h
  | _ => exact silent_one

theorem silent_all (es : List (Expr κ τ)) (hbind : each_binder_all (unbound sym) es = true)
    (h : sym ∉ free_vars_all es) : Silent (paths_all reversed sym es) := by
  cases es with
  | nil => exact silent_one
  | cons e es =>
    obtain ⟨he, hes⟩ := Bool.and_eq_true_iff.1 hbind
    obtain ⟨h₁, h₂⟩ := Finset.notMem_union.1 h
    exact (silent_of_not_free e he h₁).mul (silent_all es hes h₂)

theorem silent_reversed (es : List (Expr κ τ)) (hbind : each_binder_all (unbound sym) es = true)
    (h : sym ∉ free_vars_all es) : Silent (paths_reversed reversed sym es) := by
  cases es with
  | nil => exact silent_one
  | cons e es =>
    obtain ⟨he, hes⟩ := Bool.and_eq_true_iff.1 hbind
    obtain ⟨h₁, h₂⟩ := Finset.notMem_union.1 h
    exact (silent_reversed es hes h₂).mul (silent_of_not_free e he h₁)

theorem silent_fields (fields : List (Symbol × Expr κ τ))
    (hbind : each_binder_fields (unbound sym) fields = true) (h : sym ∉ free_vars_fields fields) :
    Silent (paths_fields reversed sym fields) := by
  cases fields with
  | nil => exact silent_one
  | cons entry fields =>
    obtain ⟨field, e⟩ := entry
    obtain ⟨he, hfields⟩ := Bool.and_eq_true_iff.1 hbind
    obtain ⟨h₁, h₂⟩ := Finset.notMem_union.1 h
    exact (silent_of_not_free e he h₁).mul (silent_fields fields hfields h₂)

theorem silent_arms (arms : List (Arm κ τ)) (hbind : each_binder_arms (unbound sym) arms = true)
    (h : sym ∉ free_vars_arms arms) : Silent (paths_arms reversed sym arms) := by
  cases arms with
  | nil => exact silent_zero
  | cons arm arms =>
    obtain ⟨pat, body, guard⟩ := arm
    obtain ⟨hpat, hbind⟩ := Bool.and_eq_true_iff.1 hbind
    obtain ⟨hguard, hbind⟩ := Bool.and_eq_true_iff.1 hbind
    obtain ⟨hbody, harms⟩ := Bool.and_eq_true_iff.1 hbind
    obtain ⟨h₁, h₂⟩ := Finset.notMem_union.1 h
    have hlater := silent_arms arms harms h₂
    have hnot : sym ∉ free_vars body ∪ free_vars_guard guard := fun hfree =>
      h₁ (Finset.mem_sdiff.2 ⟨hfree, not_mem_bound hpat⟩)
    obtain ⟨hfbody, hfguard⟩ := Finset.notMem_union.1 hnot
    have hfirst := silent_guard guard hguard hfguard
    rw [paths_arms, not_bound hpat]
    exact (hfirst.mul (silent_of_not_free body hbody hfbody)).add ((hfirst.mul hlater).add hlater)

theorem silent_guard (guard : Option (Expr κ τ)) (hbind : each_binder_guard (unbound sym) guard = true)
    (h : sym ∉ free_vars_guard guard) : Silent (paths_guard reversed sym guard) := by
  cases guard with
  | none => exact silent_one
  | some guard => exact silent_of_not_free guard hbind h

end

end

/-! ### What a closure takes -/

section

variable {reversed : κ → Bool}

theorem lacks_wrapped {shadowed : Bool} {body rebuilt : Expr κ τ}
    (hrebuilt : shadowed = true ∨ sym_referenced_directly sym body = false →
      Lacks (· = Use.captured) (paths reversed sym rebuilt)) :
    Lacks (· = Use.captured) (paths reversed sym
      (wrap_shared_lambda_if_needed sym shadowed body rebuilt)) := by
  rw [wrap_shared_lambda_if_needed]
  split_ifs with hwrap
  · exact hrebuilt (by simpa using hwrap)
  · rw [paths, paths, if_pos rfl, if_pos rfl]
    exact (lacks_letter Use.noConfusion).mul silent_one.lacks

/-- A closure is built without its name, or a clone was made for it. -/
theorem lacks_closure {params : List (Symbol × τ)} {body : Expr κ τ}
    (hbind : ((params.all fun p => unbound sym (.Var p.1)) && each_binder (unbound sym) body) = true)
    (hguard : (binds_param sym params || unguarded sym body) = true)
    (hunread : binds_param sym params = true ∨ sym_referenced_directly sym
      (if binds_param sym params then body else force_shared_capture_clones sym body) = false) :
    Lacks (· = Use.captured) (if sym ∈ free_vars (if binds_param sym params then body else
      force_shared_capture_clones sym body) \ param_names params then .letter Use.captured else 1) := by
  obtain ⟨-, hbody⟩ := Bool.and_eq_true_iff.1 hbind
  rw [if_neg]
  · exact silent_one.lacks
  · intro hfree
    obtain ⟨hbinds, hdirect⟩ :=
      direct_of_free_closure hguard hfree (direct_of_free_forced body hbody)
    rcases hunread with hunread | hunread
    · rw [hunread] at hbinds
      cases hbinds
    · rw [hunread] at hdirect
      cases hdirect

mutual

/-- No way through the rewritten expression has a closure take the name: each takes a clone. -/
theorem no_capture_forced (e : Expr κ τ) (hbind : each_binder (unbound sym) e = true)
    (hguard : unguarded sym e = true) :
    Lacks (· = Use.captured) (paths reversed sym (force_shared_capture_clones sym e)) := by
  cases e with
  | Var s =>
    rw [force_shared_capture_clones, paths]
    split_ifs
    · exact lacks_letter Use.noConfusion
    · exact silent_one.lacks
  | CloneVar s =>
    rw [force_shared_capture_clones, paths]
    split_ifs
    · exact lacks_letter Use.noConfusion
    · exact silent_one.lacks
  | Lambda params ret body => exact lacks_wrapped (lacks_closure hbind hguard)
  | SharedLambda params ret body => exact lacks_wrapped (lacks_closure hbind hguard)
  | OnceLambda params ret body capture => exact lacks_wrapped (lacks_closure hbind hguard)
  | Let name value body =>
    obtain ⟨hname, hbind⟩ := Bool.and_eq_true_iff.1 hbind
    obtain ⟨hvalue, hbody⟩ := Bool.and_eq_true_iff.1 hbind
    obtain ⟨hgvalue, hgbody⟩ := Bool.and_eq_true_iff.1 hguard
    have hne : (name == sym) = false := beq_eq_false_iff_ne.2 (not_named hname)
    rw [force_shared_capture_clones, paths, if_neg (not_named hname), hne]
    exact (no_capture_forced value hvalue hgvalue).mul
      (no_capture_forced body hbody (not_shadowed hne hgbody))
  | Destructure binder value body =>
    obtain ⟨hbinder, hbind⟩ := Bool.and_eq_true_iff.1 hbind
    obtain ⟨hvalue, hbody⟩ := Bool.and_eq_true_iff.1 hbind
    obtain ⟨hgvalue, hgbody⟩ := Bool.and_eq_true_iff.1 hguard
    have hbinds := not_bound hbinder
    rw [force_shared_capture_clones, paths, hbinds]
    exact (no_capture_forced value hvalue hgvalue).mul
      (no_capture_forced body hbody (not_shadowed hbinds hgbody))
  | Match scrutinee arms =>
    obtain ⟨hscrutinee, harms⟩ := Bool.and_eq_true_iff.1 hbind
    obtain ⟨hgscrutinee, hgarms⟩ := Bool.and_eq_true_iff.1 hguard
    exact (no_capture_forced scrutinee hscrutinee hgscrutinee).mul (no_capture_arms arms harms hgarms)
  | TailLoop params body =>
    obtain ⟨hparams, hbody⟩ := Bool.and_eq_true_iff.1 hbind
    have hbinds := not_binds_param hparams
    rw [force_shared_capture_clones, paths, hbinds]
    exact (no_capture_forced body hbody (not_shadowed hbinds hguard)).kstar
  | BinOp op lhs rhs =>
    obtain ⟨hlhs, hrhs⟩ := Bool.and_eq_true_iff.1 hbind
    obtain ⟨hglhs, hgrhs⟩ := Bool.and_eq_true_iff.1 hguard
    have hright := no_capture_forced rhs hrhs hgrhs
    rw [force_shared_capture_clones, paths]
    refine (no_capture_forced lhs hlhs hglhs).mul ?_
    split_ifs
    · exact silent_one.lacks.add hright
    · exact hright
  | If cond then_ else_ =>
    obtain ⟨hcond, hbind⟩ := Bool.and_eq_true_iff.1 hbind
    obtain ⟨hthen, helse⟩ := Bool.and_eq_true_iff.1 hbind
    obtain ⟨hgcond, hguard⟩ := Bool.and_eq_true_iff.1 hguard
    obtain ⟨hgthen, hgelse⟩ := Bool.and_eq_true_iff.1 hguard
    exact (no_capture_forced cond hcond hgcond).mul
      ((no_capture_forced then_ hthen hgthen).add (no_capture_forced else_ helse hgelse))
  | Call callee args pin on_form =>
    rw [force_shared_capture_clones, paths]
    split_ifs
    · exact no_capture_reversed args hbind hguard
    · exact no_capture_all args hbind hguard
  | Apply func args =>
    obtain ⟨hfunc, hargs⟩ := Bool.and_eq_true_iff.1 hbind
    obtain ⟨hgfunc, hgargs⟩ := Bool.and_eq_true_iff.1 hguard
    exact (no_capture_forced func hfunc hgfunc).mul (no_capture_all args hargs hgargs)
  | Tuple items => exact no_capture_all items hbind hguard
  | List elem items => exact no_capture_all items hbind hguard
  | Cons head tail =>
    obtain ⟨hhead, htail⟩ := Bool.and_eq_true_iff.1 hbind
    obtain ⟨hghead, hgtail⟩ := Bool.and_eq_true_iff.1 hguard
    exact (no_capture_forced head hhead hghead).mul (no_capture_forced tail htail hgtail)
  | ListIndexClone list index => exact no_capture_forced list hbind hguard
  | ListLenCheck list len exact_ => exact no_capture_forced list hbind hguard
  | Record fields ty => exact no_capture_fields fields hbind hguard
  | Access record field field_ty => exact no_capture_forced record hbind hguard
  | Update record fields =>
    obtain ⟨hrecord, hfields⟩ := Bool.and_eq_true_iff.1 hbind
    obtain ⟨hgrecord, hgfields⟩ := Bool.and_eq_true_iff.1 hguard
    exact (no_capture_fields fields hfields hgfields).mul (no_capture_forced record hrecord hgrecord)
  | Ctor home ty variant args => exact no_capture_all args hbind hguard
  | TaskSeq effect rest =>
    obtain ⟨heffect, hrest⟩ := Bool.and_eq_true_iff.1 hbind
    obtain ⟨hgeffect, hgrest⟩ := Bool.and_eq_true_iff.1 hguard
    rw [force_shared_capture_clones, wrap_task_seq_rest_capture]
    split_ifs with hdirect
    · rw [paths, paths, if_pos rfl, if_pos rfl]
      exact (lacks_letter Use.noConfusion).mul silent_one.lacks
    · have hunread : sym ∉ free_vars (force_shared_capture_clones sym rest) := fun hfree =>
        hdirect (direct_of_free_forced rest hrest hgrest hfree)
      exact (no_capture_forced effect heffect hgeffect).mul
        ((silent_closure hunread).lacks.defer (no_capture_forced rest hrest hgrest))
  | TailRecur args => exact no_capture_all args hbind hguard
  | _ => exact silent_one.lacks

theorem no_capture_all (es : List (Expr κ τ)) (hbind : each_binder_all (unbound sym) es = true)
    (hguard : unguarded_all sym es = true) :
    Lacks (· = Use.captured) (paths_all reversed sym (force_shared_capture_clones_all sym es)) := by
  cases es with
  | nil => exact silent_one.lacks
  | cons e es =>
    obtain ⟨he, hes⟩ := Bool.and_eq_true_iff.1 hbind
    obtain ⟨hge, hges⟩ := Bool.and_eq_true_iff.1 hguard
    exact (no_capture_forced e he hge).mul (no_capture_all es hes hges)

theorem no_capture_reversed (es : List (Expr κ τ)) (hbind : each_binder_all (unbound sym) es = true)
    (hguard : unguarded_all sym es = true) :
    Lacks (· = Use.captured) (paths_reversed reversed sym (force_shared_capture_clones_all sym es)) := by
  cases es with
  | nil => exact silent_one.lacks
  | cons e es =>
    obtain ⟨he, hes⟩ := Bool.and_eq_true_iff.1 hbind
    obtain ⟨hge, hges⟩ := Bool.and_eq_true_iff.1 hguard
    exact (no_capture_reversed es hes hges).mul (no_capture_forced e he hge)

theorem no_capture_fields (fields : List (Symbol × Expr κ τ))
    (hbind : each_binder_fields (unbound sym) fields = true) (hguard : unguarded_fields sym fields = true) :
    Lacks (· = Use.captured)
      (paths_fields reversed sym (force_shared_capture_clones_fields sym fields)) := by
  cases fields with
  | nil => exact silent_one.lacks
  | cons entry fields =>
    obtain ⟨field, e⟩ := entry
    obtain ⟨he, hfields⟩ := Bool.and_eq_true_iff.1 hbind
    obtain ⟨hge, hgfields⟩ := Bool.and_eq_true_iff.1 hguard
    exact (no_capture_forced e he hge).mul (no_capture_fields fields hfields hgfields)

theorem no_capture_arms (arms : List (Arm κ τ)) (hbind : each_binder_arms (unbound sym) arms = true)
    (hguard : unguarded_arms sym arms = true) :
    Lacks (· = Use.captured) (paths_arms reversed sym (force_shared_capture_clones_arms sym arms)) := by
  cases arms with
  | nil => exact silent_zero.lacks
  | cons arm arms =>
    obtain ⟨pat, body, guard⟩ := arm
    obtain ⟨hpat, hbind⟩ := Bool.and_eq_true_iff.1 hbind
    obtain ⟨hbguard, hbind⟩ := Bool.and_eq_true_iff.1 hbind
    obtain ⟨hbody, harms⟩ := Bool.and_eq_true_iff.1 hbind
    obtain ⟨hguard, hgarms⟩ := Bool.and_eq_true_iff.1 hguard
    have hbinds := not_bound hpat
    obtain ⟨hgguard, hgbody⟩ := Bool.and_eq_true_iff.1 (not_shadowed hbinds hguard)
    have hlater := no_capture_arms arms harms hgarms
    have hfirst : Lacks (· = Use.captured) (paths_guard reversed sym guard) :=
      (silent_guard guard hbguard (of_decide_eq_true hgguard)).lacks
    rw [force_shared_capture_clones_arms, paths_arms, hbinds]
    exact (hfirst.mul (no_capture_forced body hbody hgbody)).add ((hfirst.mul hlater).add hlater)

end

end

end

/-! ### Closures at any depth -/

section

variable (reversed : κ → Bool) (sym : Symbol)

mutual

/-- No closure of the expression, however deep, builds a closure that takes its name. -/
def relayed : Expr κ τ → Prop
  | .Let _ value body => relayed value ∧ relayed body
  | .Destructure _ value body => relayed value ∧ relayed body
  | .Match scrutinee arms => relayed scrutinee ∧ relayed_arms arms
  | .TailLoop _ body => relayed body
  | .Lambda _ _ body => Lacks (· = Use.captured) (paths reversed sym body) ∧ relayed body
  | .SharedLambda _ _ body => Lacks (· = Use.captured) (paths reversed sym body) ∧ relayed body
  | .OnceLambda _ _ body _ => Lacks (· = Use.captured) (paths reversed sym body) ∧ relayed body
  | .BinOp _ lhs rhs => relayed lhs ∧ relayed rhs
  | .If cond then_ else_ => relayed cond ∧ relayed then_ ∧ relayed else_
  | .Call _ args _ _ => relayed_all args
  | .Apply func args => relayed func ∧ relayed_all args
  | .Tuple items => relayed_all items
  | .List _ items => relayed_all items
  | .Cons head tail => relayed head ∧ relayed tail
  | .ListIndexClone list _ => relayed list
  | .ListLenCheck list _ _ => relayed list
  | .Record fields _ => relayed_fields fields
  | .Access record _ _ => relayed record
  | .Update record fields => relayed record ∧ relayed_fields fields
  | .Ctor _ _ _ args => relayed_all args
  | .TaskSeq effect rest =>
    relayed effect ∧ Lacks (· = Use.captured) (paths reversed sym rest) ∧ relayed rest
  | .TailRecur args => relayed_all args
  | _ => True

def relayed_all : List (Expr κ τ) → Prop
  | [] => True
  | e :: es => relayed e ∧ relayed_all es

def relayed_fields : List (Symbol × Expr κ τ) → Prop
  | [] => True
  | (_, e) :: fields => relayed e ∧ relayed_fields fields

def relayed_arms : List (Arm κ τ) → Prop
  | [] => True
  | .mk _ body guard :: arms => relayed_guard guard ∧ relayed body ∧ relayed_arms arms

def relayed_guard : Option (Expr κ τ) → Prop
  | none => True
  | some guard => relayed guard

end

end

section

variable {reversed : κ → Bool} {sym : Symbol}

mutual

theorem relayed_of_not_free (e : Expr κ τ) (hbind : each_binder (unbound sym) e = true)
    (h : sym ∉ free_vars e) : relayed reversed sym e := by
  cases e with
  | Let name value body =>
    obtain ⟨hname, hbind⟩ := Bool.and_eq_true_iff.1 hbind
    obtain ⟨hvalue, hbody⟩ := Bool.and_eq_true_iff.1 hbind
    obtain ⟨h₁, h₂⟩ := Finset.notMem_union.1 h
    refine ⟨relayed_of_not_free value hvalue h₁, relayed_of_not_free body hbody fun hfree => h₂ ?_⟩
    exact Finset.mem_erase.2 ⟨(not_named hname).symm, hfree⟩
  | Destructure binder value body =>
    obtain ⟨hbinder, hbind⟩ := Bool.and_eq_true_iff.1 hbind
    obtain ⟨hvalue, hbody⟩ := Bool.and_eq_true_iff.1 hbind
    obtain ⟨h₁, h₂⟩ := Finset.notMem_union.1 h
    refine ⟨relayed_of_not_free value hvalue h₁, relayed_of_not_free body hbody fun hfree => h₂ ?_⟩
    exact Finset.mem_sdiff.2 ⟨hfree, not_mem_bound hbinder⟩
  | Match scrutinee arms =>
    obtain ⟨hscrutinee, harms⟩ := Bool.and_eq_true_iff.1 hbind
    obtain ⟨h₁, h₂⟩ := Finset.notMem_union.1 h
    exact ⟨relayed_of_not_free scrutinee hscrutinee h₁, relayed_arms_of_not_free arms harms h₂⟩
  | TailLoop params body =>
    obtain ⟨hparams, hbody⟩ := Bool.and_eq_true_iff.1 hbind
    exact relayed_of_not_free body hbody (not_free_body hparams h)
  | Lambda params ret body =>
    obtain ⟨hparams, hbody⟩ := Bool.and_eq_true_iff.1 hbind
    have hnot := not_free_body hparams h
    exact ⟨(silent_of_not_free body hbody hnot).lacks, relayed_of_not_free body hbody hnot⟩
  | SharedLambda params ret body =>
    obtain ⟨hparams, hbody⟩ := Bool.and_eq_true_iff.1 hbind
    have hnot := not_free_body hparams h
    exact ⟨(silent_of_not_free body hbody hnot).lacks, relayed_of_not_free body hbody hnot⟩
  | OnceLambda params ret body capture =>
    obtain ⟨hparams, hbody⟩ := Bool.and_eq_true_iff.1 hbind
    have hnot := not_free_body hparams h
    exact ⟨(silent_of_not_free body hbody hnot).lacks, relayed_of_not_free body hbody hnot⟩
  | BinOp op lhs rhs =>
    obtain ⟨hlhs, hrhs⟩ := Bool.and_eq_true_iff.1 hbind
    obtain ⟨h₁, h₂⟩ := Finset.notMem_union.1 h
    exact ⟨relayed_of_not_free lhs hlhs h₁, relayed_of_not_free rhs hrhs h₂⟩
  | If cond then_ else_ =>
    obtain ⟨hcond, hbind⟩ := Bool.and_eq_true_iff.1 hbind
    obtain ⟨hthen, helse⟩ := Bool.and_eq_true_iff.1 hbind
    obtain ⟨h₁, h⟩ := Finset.notMem_union.1 h
    obtain ⟨h₂, h₃⟩ := Finset.notMem_union.1 h
    exact ⟨relayed_of_not_free cond hcond h₁, relayed_of_not_free then_ hthen h₂,
      relayed_of_not_free else_ helse h₃⟩
  | Call callee args pin on_form => exact relayed_all_of_not_free args hbind h
  | Apply func args =>
    obtain ⟨hfunc, hargs⟩ := Bool.and_eq_true_iff.1 hbind
    obtain ⟨h₁, h₂⟩ := Finset.notMem_union.1 h
    exact ⟨relayed_of_not_free func hfunc h₁, relayed_all_of_not_free args hargs h₂⟩
  | Tuple items => exact relayed_all_of_not_free items hbind h
  | List elem items => exact relayed_all_of_not_free items hbind h
  | Cons head tail =>
    obtain ⟨hhead, htail⟩ := Bool.and_eq_true_iff.1 hbind
    obtain ⟨h₁, h₂⟩ := Finset.notMem_union.1 h
    exact ⟨relayed_of_not_free head hhead h₁, relayed_of_not_free tail htail h₂⟩
  | ListIndexClone list index => exact relayed_of_not_free list hbind h
  | ListLenCheck list len exact_ => exact relayed_of_not_free list hbind h
  | Record fields ty => exact relayed_fields_of_not_free fields hbind h
  | Access record field field_ty => exact relayed_of_not_free record hbind h
  | Update record fields =>
    obtain ⟨hrecord, hfields⟩ := Bool.and_eq_true_iff.1 hbind
    obtain ⟨h₁, h₂⟩ := Finset.notMem_union.1 h
    exact ⟨relayed_of_not_free record hrecord h₁, relayed_fields_of_not_free fields hfields h₂⟩
  | Ctor home ty variant args => exact relayed_all_of_not_free args hbind h
  | TaskSeq effect rest =>
    obtain ⟨heffect, hrest⟩ := Bool.and_eq_true_iff.1 hbind
    obtain ⟨h₁, h₂⟩ := Finset.notMem_union.1 h
    exact ⟨relayed_of_not_free effect heffect h₁, (silent_of_not_free rest hrest h₂).lacks,
      relayed_of_not_free rest hrest h₂⟩
  | TailRecur args => exact relayed_all_of_not_free args hbind h
  | _ => trivial

theorem relayed_all_of_not_free (es : List (Expr κ τ)) (hbind : each_binder_all (unbound sym) es = true)
    (h : sym ∉ free_vars_all es) : relayed_all reversed sym es := by
  cases es with
  | nil => trivial
  | cons e es =>
    obtain ⟨he, hes⟩ := Bool.and_eq_true_iff.1 hbind
    obtain ⟨h₁, h₂⟩ := Finset.notMem_union.1 h
    exact ⟨relayed_of_not_free e he h₁, relayed_all_of_not_free es hes h₂⟩

theorem relayed_fields_of_not_free (fields : List (Symbol × Expr κ τ))
    (hbind : each_binder_fields (unbound sym) fields = true) (h : sym ∉ free_vars_fields fields) :
    relayed_fields reversed sym fields := by
  cases fields with
  | nil => trivial
  | cons entry fields =>
    obtain ⟨field, e⟩ := entry
    obtain ⟨he, hfields⟩ := Bool.and_eq_true_iff.1 hbind
    obtain ⟨h₁, h₂⟩ := Finset.notMem_union.1 h
    exact ⟨relayed_of_not_free e he h₁, relayed_fields_of_not_free fields hfields h₂⟩

theorem relayed_arms_of_not_free (arms : List (Arm κ τ))
    (hbind : each_binder_arms (unbound sym) arms = true) (h : sym ∉ free_vars_arms arms) :
    relayed_arms reversed sym arms := by
  cases arms with
  | nil => trivial
  | cons arm arms =>
    obtain ⟨pat, body, guard⟩ := arm
    obtain ⟨hpat, hbind⟩ := Bool.and_eq_true_iff.1 hbind
    obtain ⟨hguard, hbind⟩ := Bool.and_eq_true_iff.1 hbind
    obtain ⟨hbody, harms⟩ := Bool.and_eq_true_iff.1 hbind
    obtain ⟨h₁, h₂⟩ := Finset.notMem_union.1 h
    have hnot : sym ∉ free_vars body ∪ free_vars_guard guard := fun hfree =>
      h₁ (Finset.mem_sdiff.2 ⟨hfree, not_mem_bound hpat⟩)
    obtain ⟨hfbody, hfguard⟩ := Finset.notMem_union.1 hnot
    exact ⟨relayed_guard_of_not_free guard hguard hfguard, relayed_of_not_free body hbody hfbody,
      relayed_arms_of_not_free arms harms h₂⟩

theorem relayed_guard_of_not_free (guard : Option (Expr κ τ))
    (hbind : each_binder_guard (unbound sym) guard = true) (h : sym ∉ free_vars_guard guard) :
    relayed_guard reversed sym guard := by
  cases guard with
  | none => trivial
  | some guard => exact relayed_of_not_free guard hbind h

end

theorem relayed_wrapped {shadowed : Bool} {body rebuilt : Expr κ τ}
    (h : relayed reversed sym rebuilt) :
    relayed reversed sym (wrap_shared_lambda_if_needed sym shadowed body rebuilt) := by
  rw [wrap_shared_lambda_if_needed]
  split_ifs
  · exact h
  · exact ⟨trivial, h⟩

mutual

/-- However deep, a closure of the rewritten expression builds none that takes its name. -/
theorem relayed_forced (e : Expr κ τ) (hbind : each_binder (unbound sym) e = true)
    (hguard : unguarded sym e = true) :
    relayed reversed sym (force_shared_capture_clones sym e) := by
  cases e with
  | Let name value body =>
    obtain ⟨hname, hbind⟩ := Bool.and_eq_true_iff.1 hbind
    obtain ⟨hvalue, hbody⟩ := Bool.and_eq_true_iff.1 hbind
    obtain ⟨hgvalue, hgbody⟩ := Bool.and_eq_true_iff.1 hguard
    have hne : (name == sym) = false := beq_eq_false_iff_ne.2 (not_named hname)
    rw [force_shared_capture_clones, hne]
    exact ⟨relayed_forced value hvalue hgvalue, relayed_forced body hbody (not_shadowed hne hgbody)⟩
  | Destructure binder value body =>
    obtain ⟨hbinder, hbind⟩ := Bool.and_eq_true_iff.1 hbind
    obtain ⟨hvalue, hbody⟩ := Bool.and_eq_true_iff.1 hbind
    obtain ⟨hgvalue, hgbody⟩ := Bool.and_eq_true_iff.1 hguard
    have hbinds := not_bound hbinder
    rw [force_shared_capture_clones, hbinds]
    exact ⟨relayed_forced value hvalue hgvalue, relayed_forced body hbody (not_shadowed hbinds hgbody)⟩
  | Match scrutinee arms =>
    obtain ⟨hscrutinee, harms⟩ := Bool.and_eq_true_iff.1 hbind
    obtain ⟨hgscrutinee, hgarms⟩ := Bool.and_eq_true_iff.1 hguard
    exact ⟨relayed_forced scrutinee hscrutinee hgscrutinee, relayed_forced_arms arms harms hgarms⟩
  | TailLoop params body =>
    obtain ⟨hparams, hbody⟩ := Bool.and_eq_true_iff.1 hbind
    have hbinds := not_binds_param hparams
    rw [force_shared_capture_clones, hbinds]
    exact relayed_forced body hbody (not_shadowed hbinds hguard)
  | Lambda params ret body =>
    obtain ⟨hparams, hbody⟩ := Bool.and_eq_true_iff.1 hbind
    have hbinds := not_binds_param hparams
    have hgbody := not_shadowed hbinds hguard
    rw [force_shared_capture_clones, hbinds]
    exact relayed_wrapped ⟨no_capture_forced body hbody hgbody, relayed_forced body hbody hgbody⟩
  | SharedLambda params ret body =>
    obtain ⟨hparams, hbody⟩ := Bool.and_eq_true_iff.1 hbind
    have hbinds := not_binds_param hparams
    have hgbody := not_shadowed hbinds hguard
    rw [force_shared_capture_clones, hbinds]
    exact relayed_wrapped ⟨no_capture_forced body hbody hgbody, relayed_forced body hbody hgbody⟩
  | OnceLambda params ret body capture =>
    obtain ⟨hparams, hbody⟩ := Bool.and_eq_true_iff.1 hbind
    have hbinds := not_binds_param hparams
    have hgbody := not_shadowed hbinds hguard
    rw [force_shared_capture_clones, hbinds]
    exact relayed_wrapped ⟨no_capture_forced body hbody hgbody, relayed_forced body hbody hgbody⟩
  | BinOp op lhs rhs =>
    obtain ⟨hlhs, hrhs⟩ := Bool.and_eq_true_iff.1 hbind
    obtain ⟨hglhs, hgrhs⟩ := Bool.and_eq_true_iff.1 hguard
    exact ⟨relayed_forced lhs hlhs hglhs, relayed_forced rhs hrhs hgrhs⟩
  | If cond then_ else_ =>
    obtain ⟨hcond, hbind⟩ := Bool.and_eq_true_iff.1 hbind
    obtain ⟨hthen, helse⟩ := Bool.and_eq_true_iff.1 hbind
    obtain ⟨hgcond, hguard⟩ := Bool.and_eq_true_iff.1 hguard
    obtain ⟨hgthen, hgelse⟩ := Bool.and_eq_true_iff.1 hguard
    exact ⟨relayed_forced cond hcond hgcond, relayed_forced then_ hthen hgthen,
      relayed_forced else_ helse hgelse⟩
  | Call callee args pin on_form => exact relayed_forced_all args hbind hguard
  | Apply func args =>
    obtain ⟨hfunc, hargs⟩ := Bool.and_eq_true_iff.1 hbind
    obtain ⟨hgfunc, hgargs⟩ := Bool.and_eq_true_iff.1 hguard
    exact ⟨relayed_forced func hfunc hgfunc, relayed_forced_all args hargs hgargs⟩
  | Tuple items => exact relayed_forced_all items hbind hguard
  | List elem items => exact relayed_forced_all items hbind hguard
  | Cons head tail =>
    obtain ⟨hhead, htail⟩ := Bool.and_eq_true_iff.1 hbind
    obtain ⟨hghead, hgtail⟩ := Bool.and_eq_true_iff.1 hguard
    exact ⟨relayed_forced head hhead hghead, relayed_forced tail htail hgtail⟩
  | ListIndexClone list index => exact relayed_forced list hbind hguard
  | ListLenCheck list len exact_ => exact relayed_forced list hbind hguard
  | Record fields ty => exact relayed_forced_fields fields hbind hguard
  | Access record field field_ty => exact relayed_forced record hbind hguard
  | Update record fields =>
    obtain ⟨hrecord, hfields⟩ := Bool.and_eq_true_iff.1 hbind
    obtain ⟨hgrecord, hgfields⟩ := Bool.and_eq_true_iff.1 hguard
    exact ⟨relayed_forced record hrecord hgrecord, relayed_forced_fields fields hfields hgfields⟩
  | Ctor home ty variant args => exact relayed_forced_all args hbind hguard
  | TaskSeq effect rest =>
    obtain ⟨heffect, hrest⟩ := Bool.and_eq_true_iff.1 hbind
    obtain ⟨hgeffect, hgrest⟩ := Bool.and_eq_true_iff.1 hguard
    have hparts : relayed reversed sym (.TaskSeq (force_shared_capture_clones sym effect)
        (force_shared_capture_clones sym rest)) :=
      ⟨relayed_forced effect heffect hgeffect, no_capture_forced rest hrest hgrest,
        relayed_forced rest hrest hgrest⟩
    rw [force_shared_capture_clones, wrap_task_seq_rest_capture]
    split_ifs
    · exact ⟨trivial, hparts⟩
    · exact hparts
  | TailRecur args => exact relayed_forced_all args hbind hguard
  | _ => trivial

theorem relayed_forced_all (es : List (Expr κ τ)) (hbind : each_binder_all (unbound sym) es = true)
    (hguard : unguarded_all sym es = true) :
    relayed_all reversed sym (force_shared_capture_clones_all sym es) := by
  cases es with
  | nil => trivial
  | cons e es =>
    obtain ⟨he, hes⟩ := Bool.and_eq_true_iff.1 hbind
    obtain ⟨hge, hges⟩ := Bool.and_eq_true_iff.1 hguard
    exact ⟨relayed_forced e he hge, relayed_forced_all es hes hges⟩

theorem relayed_forced_fields (fields : List (Symbol × Expr κ τ))
    (hbind : each_binder_fields (unbound sym) fields = true) (hguard : unguarded_fields sym fields = true) :
    relayed_fields reversed sym (force_shared_capture_clones_fields sym fields) := by
  cases fields with
  | nil => trivial
  | cons entry fields =>
    obtain ⟨field, e⟩ := entry
    obtain ⟨he, hfields⟩ := Bool.and_eq_true_iff.1 hbind
    obtain ⟨hge, hgfields⟩ := Bool.and_eq_true_iff.1 hguard
    exact ⟨relayed_forced e he hge, relayed_forced_fields fields hfields hgfields⟩

theorem relayed_forced_arms (arms : List (Arm κ τ)) (hbind : each_binder_arms (unbound sym) arms = true)
    (hguard : unguarded_arms sym arms = true) :
    relayed_arms reversed sym (force_shared_capture_clones_arms sym arms) := by
  cases arms with
  | nil => trivial
  | cons arm arms =>
    obtain ⟨pat, body, guard⟩ := arm
    obtain ⟨hpat, hbind⟩ := Bool.and_eq_true_iff.1 hbind
    obtain ⟨hbguard, hbind⟩ := Bool.and_eq_true_iff.1 hbind
    obtain ⟨hbody, harms⟩ := Bool.and_eq_true_iff.1 hbind
    obtain ⟨hguard, hgarms⟩ := Bool.and_eq_true_iff.1 hguard
    have hbinds := not_bound hpat
    obtain ⟨hgguard, hgbody⟩ := Bool.and_eq_true_iff.1 (not_shadowed hbinds hguard)
    rw [force_shared_capture_clones_arms, hbinds]
    exact ⟨relayed_guard_of_not_free guard hbguard (of_decide_eq_true hgguard),
      relayed_forced body hbody hgbody, relayed_forced_arms arms harms hgarms⟩

end

end

/-- A name that no guard reads and that nothing binds again: after the rewrite no way through the
expression has a closure take it, and no closure of the expression builds one that takes it. -/
theorem force_shared_capture_clones_relays (reversed : κ → Bool) (sym : Symbol) (e : Expr κ τ)
    (hbind : each_binder (unbound sym) e = true) (hguard : unguarded sym e = true) :
    Lacks (· = Use.captured) (paths reversed sym (force_shared_capture_clones sym e)) ∧
      relayed reversed sym (force_shared_capture_clones sym e) :=
  ⟨no_capture_forced e hbind hguard, relayed_forced e hbind hguard⟩

/-- Two closures and the continuation of a task in each other, of which the innermost reads the name. -/
def nested : Expr Empty Unit :=
  .Lambda [(1, ())] () (.Lambda [(2, ())] () (.TaskSeq (.Var 2) (.Var 0)))

theorem force_shared_capture_clones_relays_nested :
    ¬ relayed (fun k : Empty => k.elim) 0 nested ∧
      Lacks (· = Use.captured) (paths (fun k : Empty => k.elim) 0 (force_shared_capture_clones 0 nested)) ∧
        relayed (fun k : Empty => k.elim) 0 (force_shared_capture_clones 0 nested) := by
  refine ⟨fun h => ?_, force_shared_capture_clones_relays (fun k : Empty => k.elim) 0 nested (by decide)
    (by decide)⟩
  -- The inner closure takes the name out of the outer one.
  exact h.1.1 [.captured] rfl .captured (List.mem_singleton_self _) rfl

end IpeLang.Ir
