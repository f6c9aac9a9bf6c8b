import IpeLang.Ir.FreeVars

/-!
# Inlining a let

A value that can be moved only is evaluated at each use instead of being bound once.

* `let_value_is_inlined`, `inlined_let_body`: when, and what is evaluated then;
* `eval_substitute_var`: a name and the expression that is put in its place;
* `eval_inlined_let_body`: the inlined body means what the let meant.
-/

namespace IpeLang.Ir

variable {κ τ V : Type} {m : Type → Type} [Monad m]

/-- The reads of two parts, and whether one of them clones. -/
def both (p q : ℕ × Bool) : ℕ × Bool := (p.1 + q.1, p.2 || q.2)

def binds_param (target : Symbol) (params : List (Symbol × τ)) : Bool :=
  params.any fun p => p.1 == target

section

variable (in_guards : Bool) (target : Symbol)

mutual

/-- The free reads of a name, and whether it is cloned. The lowerer does not look at guards; with
`in_guards` these are read too. -/
def scan_free_target_into : Expr κ τ → ℕ × Bool
  | .Var s => (if s = target then 1 else 0, false)
  | .CloneVar s => (0, s == target)
  | .Int _ => (0, false)
  | .Bool _ => (0, false)
  | .Float _ => (0, false)
  | .Str _ => (0, false)
  | .CustomElementRef _ _ => (0, false)
  | .Char _ => (0, false)
  | .Unit => (0, false)
  | .FuncValue _ _ => (0, false)
  | .Ctor _ _ _ args => scan_all args
  | .Call _ args _ _ => scan_all args
  | .TailRecur args => scan_all args
  | .BinOp _ lhs rhs => both (scan_free_target_into lhs) (scan_free_target_into rhs)
  | .Let name value body =>
    both (scan_free_target_into value)
      (if name == target then (0, false) else scan_free_target_into body)
  | .Destructure binder value body =>
    both (scan_free_target_into value)
      (if pat_binds_target target binder then (0, false) else scan_free_target_into body)
  | .If cond then_ else_ =>
    both (scan_free_target_into cond) (both (scan_free_target_into then_) (scan_free_target_into else_))
  | .Match scrutinee arms => both (scan_free_target_into scrutinee) (scan_arms arms)
  | .Tuple items => scan_all items
  | .List _ items => scan_all items
  | .Cons head tail => both (scan_free_target_into head) (scan_free_target_into tail)
  | .ListIndexClone list _ => scan_free_target_into list
  | .ListLenCheck list _ _ => scan_free_target_into list
  | .Record fields _ => scan_fields fields
  | .Access record _ _ => scan_free_target_into record
  | .Update record fields => both (scan_free_target_into record) (scan_fields fields)
  | .Lambda params _ body => if binds_param target params then (0, false) else scan_free_target_into body
  | .SharedLambda params _ body =>
    if binds_param target params then (0, false) else scan_free_target_into body
  | .OnceLambda params _ body _ =>
    if binds_param target params then (0, false) else scan_free_target_into body
  | .TailLoop params body => if binds_param target params then (0, false) else scan_free_target_into body
  | .Apply func args => both (scan_free_target_into func) (scan_all args)
  | .TaskSeq effect rest => both (scan_free_target_into effect) (scan_free_target_into rest)

def scan_all : List (Expr κ τ) → ℕ × Bool
  | [] => (0, false)
  | e :: es => both (scan_free_target_into e) (scan_all es)

def scan_fields : List (Symbol × Expr κ τ) → ℕ × Bool
  | [] => (0, false)
  | (_, e) :: fields => both (scan_free_target_into e) (scan_fields fields)

def scan_arms : List (Arm κ τ) → ℕ × Bool
  | [] => (0, false)
  | .mk pat body guard :: arms =>
    both
      (if pat_binds_target target pat then (0, false)
      else both (scan_free_target_into body) (if in_guards then scan_guard guard else (0, false)))
      (scan_arms arms)

def scan_guard : Option (Expr κ τ) → ℕ × Bool
  | none => (0, false)
  | some guard => scan_free_target_into guard

end

end

def scan_free_target (expr : Expr κ τ) (target : Symbol) : ℕ × Bool :=
  scan_free_target_into false target expr

section

variable (target : Symbol) (replacement : Expr κ τ)

mutual

def substitute_var : Expr κ τ → Expr κ τ
  | .Var s => if s = target then replacement else .Var s
  | .CloneVar s => .CloneVar s
  | .Int n => .Int n
  | .Bool b => .Bool b
  | .Float bits => .Float bits
  | .Str s => .Str s
  | .CustomElementRef tag js_path => .CustomElementRef tag js_path
  | .Char c => .Char c
  | .Unit => .Unit
  | .FuncValue callee ty => .FuncValue callee ty
  | .BinOp op lhs rhs => .BinOp op (substitute_var lhs) (substitute_var rhs)
  | .Let name value body =>
    .Let name (substitute_var value) (if name == target then body else substitute_var body)
  | .Destructure binder value body =>
    .Destructure binder (substitute_var value)
      (if pat_binds_target target binder then body else substitute_var body)
  | .If cond then_ else_ => .If (substitute_var cond) (substitute_var then_) (substitute_var else_)
  | .Match scrutinee arms => .Match (substitute_var scrutinee) (substitute_arms arms)
  | .Call callee args pin on_form => .Call callee (substitute_all args) pin on_form
  | .Tuple items => .Tuple (substitute_all items)
  | .List elem items => .List elem (substitute_all items)
  | .Cons head tail => .Cons (substitute_var head) (substitute_var tail)
  | .ListIndexClone list index => .ListIndexClone (substitute_var list) index
  | .ListLenCheck list len exact => .ListLenCheck (substitute_var list) len exact
  | .Record fields ty => .Record (substitute_fields fields) ty
  | .Access record field field_ty => .Access (substitute_var record) field field_ty
  | .Update record fields => .Update (substitute_var record) (substitute_fields fields)
  | .Lambda params ret body =>
    .Lambda params ret (if binds_param target params then body else substitute_var body)
  | .SharedLambda params ret body =>
    .SharedLambda params ret (if binds_param target params then body else substitute_var body)
  | .OnceLambda params ret body capture =>
    .OnceLambda params ret (if binds_param target params then body else substitute_var body) capture
  | .Apply func args => .Apply (substitute_var func) (substitute_all args)
  | .TaskSeq effect rest => .TaskSeq (substitute_var effect) (substitute_var rest)
  | .Ctor home ty variant args => .Ctor home ty variant (substitute_all args)
  | .TailLoop params body =>
    .TailLoop params (if binds_param target params then body else substitute_var body)
  | .TailRecur args => .TailRecur (substitute_all args)

def substitute_all : List (Expr κ τ) → List (Expr κ τ)
  | [] => []
  | e :: es => substitute_var e :: substitute_all es

def substitute_fields : List (Symbol × Expr κ τ) → List (Symbol × Expr κ τ)
  | [] => []
  | (field, e) :: fields => (field, substitute_var e) :: substitute_fields fields

def substitute_arms : List (Arm κ τ) → List (Arm κ τ)
  | [] => []
  | .mk pat body guard :: arms =>
    .mk pat (if pat_binds_target target pat then body else substitute_var body)
      (if pat_binds_target target pat then guard else substitute_guard guard) :: substitute_arms arms

def substitute_guard : Option (Expr κ τ) → Option (Expr κ τ)
  | none => none
  | some guard => some (substitute_var guard)

end

end

section

variable (ir_type_contains_task : τ → Bool)

mutual

/-- A list whose elements hold a task, or what is built of one. -/
def expr_value_is_non_clone : Expr κ τ → Bool
  | .List elem _ => ir_type_contains_task elem
  | .Tuple items => any_non_clone items
  | .Record fields _ => field_non_clone fields
  | _ => false

def any_non_clone : List (Expr κ τ) → Bool
  | [] => false
  | e :: es => expr_value_is_non_clone e || any_non_clone es

def field_non_clone : List (Symbol × Expr κ τ) → Bool
  | [] => false
  | (_, e) :: fields => expr_value_is_non_clone e || field_non_clone fields

end

def let_value_is_inlined (name : Symbol) (value body : Expr κ τ) : Bool :=
  let (occurrences, has_clonevar) := scan_free_target body name
  decide (occurrences > 1) && expr_value_is_non_clone ir_type_contains_task value && !has_clonevar

def inlined_let_body (name : Symbol) (value body : Expr κ τ) : Option (Expr κ τ) :=
  if let_value_is_inlined ir_type_contains_task name value body then
    some (substitute_var name value body)
  else none

end

/-! ### Names that are bound -/

mutual

theorem pat_binds_target_iff {target : Symbol} (p : Pat) (hp : uniform p = true) :
    pat_binds_target target p = true ↔ target ∈ pat_bound_symbols p := by
  cases p with
  | Var s =>
    rw [pat_binds_target, pat_bound_symbols, beq_iff_eq, Finset.mem_singleton, eq_comm]
  | Alias inner s =>
    rw [pat_binds_target, pat_bound_symbols, Bool.or_eq_true, Finset.mem_union,
      pat_binds_target_iff inner hp, beq_iff_eq, Finset.mem_singleton, eq_comm]
  | Ctor home ty variant args => exact any_binds_target_iff args hp
  | Tuple elems => exact any_binds_target_iff elems hp
  | Record fields => exact field_binds_target_iff fields hp
  | Slice leading rest =>
    obtain ⟨hleading, hrest⟩ := Bool.and_eq_true_iff.1 hp
    rw [pat_binds_target, pat_bound_symbols, Bool.or_eq_true, Finset.mem_union,
      any_binds_target_iff leading hleading, rest_binds_target_iff rest hrest]
  | Or alts =>
    cases alts with
    | nil => simp [pat_binds_target, any_binds_target, pat_bound_symbols, first_bound_symbols]
    | cons p alts =>
      rw [pat_binds_target, alts_bind_target_iff (p :: alts) hp, pat_bound_symbols]
      simp
  | _ => simp [pat_binds_target, pat_bound_symbols]

theorem any_binds_target_iff {target : Symbol} (ps : List Pat) (hps : uniform_all ps = true) :
    any_binds_target target ps = true ↔ target ∈ all_bound_symbols ps := by
  cases ps with
  | nil => simp [any_binds_target, all_bound_symbols]
  | cons p ps =>
    obtain ⟨hp, hps⟩ := Bool.and_eq_true_iff.1 hps
    rw [any_binds_target, all_bound_symbols, Bool.or_eq_true, Finset.mem_union,
      pat_binds_target_iff p hp, any_binds_target_iff ps hps]

theorem field_binds_target_iff {target : Symbol} (fields : List (Symbol × Pat))
    (hfields : uniform_fields fields = true) :
    field_binds_target target fields = true ↔ target ∈ field_bound_symbols fields := by
  cases fields with
  | nil => simp [field_binds_target, field_bound_symbols]
  | cons entry fields =>
    obtain ⟨field, p⟩ := entry
    obtain ⟨hp, hfields⟩ := Bool.and_eq_true_iff.1 hfields
    rw [field_binds_target, field_bound_symbols, Bool.or_eq_true, Finset.mem_union,
      pat_binds_target_iff p hp, field_binds_target_iff fields hfields]

theorem rest_binds_target_iff {target : Symbol} (rest : Option Pat)
    (hrest : uniform_rest rest = true) :
    rest_binds_target target rest = true ↔ target ∈ rest_bound_symbols rest := by
  cases rest with
  | none => simp [rest_binds_target, rest_bound_symbols]
  | some p => exact pat_binds_target_iff p hrest

/-- One of the alternatives binds a name if they all do. -/
theorem alts_bind_target_iff {target : Symbol} {names : Finset Symbol} (alts : List Pat)
    (halts : uniform_alts names alts = true) :
    any_binds_target target alts = true ↔ alts ≠ [] ∧ target ∈ names := by
  cases alts with
  | nil => simp [any_binds_target]
  | cons p alts =>
    obtain ⟨hnames, hrest⟩ := Bool.and_eq_true_iff.1 halts
    obtain ⟨hp, halts⟩ := Bool.and_eq_true_iff.1 hrest
    rw [any_binds_target, Bool.or_eq_true, pat_binds_target_iff p hp, alts_bind_target_iff alts halts,
      of_decide_eq_true hnames]
    simp

end

theorem binds_param_iff {target : Symbol} {params : List (Symbol × τ)} :
    binds_param target params = true ↔ target ∈ param_names params := by
  simp [binds_param, param_names]

/-! ### Scopes -/

section

variable {target : Symbol} {a : V} {bindings : List (Symbol × V)} {env : Env V}

/-- A name that is bound again. -/
theorem extend_shadowed (h : target ∈ bound bindings) :
    (env.extend [(target, a)]).extend bindings = env.extend bindings := by
  funext s
  rw [Env.extend, Env.extend, Env.extend]
  by_cases hs : s = target
  · obtain ⟨v, hv⟩ := lookup_isSome (hs ▸ h)
    rw [hv]
    rfl
  · have hne : (s == target) = false := by simpa using hs
    simp [List.lookup_cons, hne]

theorem extend_comm (h : target ∉ bound bindings) :
    (env.extend bindings).extend [(target, a)] = (env.extend [(target, a)]).extend bindings := by
  funext s
  rw [Env.extend, Env.extend, Env.extend, Env.extend]
  by_cases hs : s = target
  · have hnone : bindings.lookup s = none := by
      rw [List.lookup_eq_none_iff]
      intro p hp
      have hne : s ≠ p.1 := by
        rintro rfl
        exact h (hs ▸ List.mem_toFinset.2 (List.mem_map_of_mem hp))
      simpa using hne
    rw [hnone]
    simp [hs]
  · have hne : (s == target) = false := by simpa using hs
    simp [List.lookup_cons, hne]

end

/-! ### A name and what is put in its place -/

/-- The pattern binds none of these names. -/
def avoids (names : Finset Symbol) (p : Pat) : Bool := decide (Disjoint (pat_bound_symbols p) names)

theorem both_clone {p q : ℕ × Bool} : (both p q).2 = false ↔ p.2 = false ∧ q.2 = false := by
  simp [both]

section

variable {M : Meaning κ V m} {calls : FuncId → List V → m V} {target : Symbol} {a : V}
  {replacement : Expr κ τ}

/-- In a scope that binds no name of the replacement, a part means what it meant with the value of the
replacement under the name. Where the scope binds the name, the part was left alone. -/
theorem scope_substitute {α : Type} {bindings : List (Symbol × V)} {env : Env V}
    {part part' : Env V → m α} {binds : Bool} (huniform : each_binder uniform replacement = true)
    (hvalue : eval M calls replacement env = pure a)
    (hbinds : binds = true ↔ target ∈ bound bindings)
    (havoids : Disjoint (bound bindings) (free_vars replacement))
    (hpart : binds = false → ∀ env', eval M calls replacement env' = pure a →
      part' env' = part (env'.extend [(target, a)])) :
    (if binds then part else part') (env.extend bindings) =
      part ((env.extend [(target, a)]).extend bindings) := by
  cases hb : binds with
  | true =>
    rw [if_pos rfl, extend_shadowed (hbinds.1 hb)]
  | false =>
    have hnot : target ∉ bound bindings := fun hmem => by simp [hbinds.2 hmem] at hb
    have hvalue' : eval M calls replacement (env.extend bindings) = pure a := by
      rw [← hvalue]
      refine eval_congr replacement huniform fun s hs => ?_
      have hs' : s ∉ bound bindings := fun hmem => Finset.disjoint_left.1 havoids hmem hs
      have hnone : bindings.lookup s = none := by
        rw [List.lookup_eq_none_iff]
        intro p hp
        have hne : s ≠ p.1 := by
          rintro rfl
          exact hs' (List.mem_toFinset.2 (List.mem_map_of_mem hp))
        simpa using hne
      rw [Env.extend, hnone]
      rfl
    rw [if_neg (by simp), hpart hb _ hvalue', extend_comm hnot]

theorem closure_substitute {params : List (Symbol × τ)} {env : Env V} {part part' : Env V → m V}
    (huniform : each_binder uniform replacement = true)
    (hvalue : eval M calls replacement env = pure a)
    (havoids : (params.all fun p => avoids (free_vars replacement) (.Var p.1)) = true)
    (hpart : binds_param target params = false → ∀ env', eval M calls replacement env' = pure a →
      part' env' = part (env'.extend [(target, a)])) :
    closure M params env (if binds_param target params then part else part') =
      closure M params (env.extend [(target, a)]) part := by
  rw [closure, closure]
  congr 1
  funext args
  rw [enter, enter]
  by_cases hlen : args.length = params.length
  · rw [if_pos hlen, if_pos hlen]
    refine scope_substitute huniform hvalue ?_ ?_ hpart
    · rw [bound_zip hlen, binds_param_iff]
    · rw [bound_zip hlen, Finset.disjoint_left]
      intro s hs
      obtain ⟨p, hp, rfl⟩ := List.mem_map.1 (List.mem_toFinset.1 hs)
      have hdisjoint := of_decide_eq_true (List.all_eq_true.1 havoids p hp)
      exact Finset.disjoint_left.1 hdisjoint (Finset.mem_singleton_self p.1)
  · rw [if_neg hlen, if_neg hlen]

mutual

/-- An expression with a name replaced means what the expression means with the value of the replacement
under the name. -/
theorem eval_substitute_var (huniform : each_binder uniform replacement = true) (e : Expr κ τ)
    (he : each_binder uniform e = true)
    (havoids : each_binder (avoids (free_vars replacement)) e = true)
    (hclone : (scan_free_target_into true target e).2 = false) {env : Env V}
    (hvalue : eval M calls replacement env = pure a) :
    eval M calls (substitute_var target replacement e) env =
      eval M calls e (env.extend [(target, a)]) := by
  cases e with
  | Var s =>
    rw [substitute_var, eval, look_up]
    by_cases hs : s = target
    · rw [if_pos hs, hvalue]
      simp [Env.extend, hs]
    · have hne : (s == target) = false := by simpa using hs
      rw [if_neg hs, eval, look_up]
      simp [Env.extend, List.lookup_cons, hne]
  | CloneVar s =>
    have hne : (s == target) = false := hclone
    rw [substitute_var, eval, eval, look_up, look_up]
    simp [Env.extend, List.lookup_cons, hne]
  | Ctor home ty variant args =>
    rw [substitute_var, eval, eval, eval_substitute_all huniform args he havoids hclone hvalue]
  | BinOp op lhs rhs =>
    obtain ⟨hlhs, hrhs⟩ := Bool.and_eq_true_iff.1 he
    obtain ⟨havoids₁, havoids₂⟩ := Bool.and_eq_true_iff.1 havoids
    obtain ⟨hclone₁, hclone₂⟩ := both_clone.1 hclone
    rw [substitute_var, eval, eval, eval_substitute_var huniform lhs hlhs havoids₁ hclone₁ hvalue,
      eval_substitute_var huniform rhs hrhs havoids₂ hclone₂ hvalue]
  | Let name value body =>
    obtain ⟨-, he⟩ := Bool.and_eq_true_iff.1 he
    obtain ⟨he₁, he₂⟩ := Bool.and_eq_true_iff.1 he
    obtain ⟨hname, havoids⟩ := Bool.and_eq_true_iff.1 havoids
    obtain ⟨havoids₁, havoids₂⟩ := Bool.and_eq_true_iff.1 havoids
    obtain ⟨hclone₁, hclone₂⟩ := both_clone.1 hclone
    rw [substitute_var, eval, eval, eval_substitute_var huniform value he₁ havoids₁ hclone₁ hvalue,
      apply_ite (eval M calls)]
    refine bind_congr fun v => scope_substitute huniform hvalue ?_ ?_ fun hbinds env' hvalue' => ?_
    · -- Below a binder of the same name nothing is replaced, and no binder takes a name of the replacement.
      have hbound : bound [(name, v)] = {name} := rfl
      rw [beq_iff_eq, hbound, Finset.mem_singleton, eq_comm]
    · exact of_decide_eq_true hname
    · rw [hbinds, if_neg (by simp)] at hclone₂
      exact eval_substitute_var huniform body he₂ havoids₂ hclone₂ hvalue'
  | Destructure binder value body =>
    obtain ⟨hbinder, he⟩ := Bool.and_eq_true_iff.1 he
    obtain ⟨he₁, he₂⟩ := Bool.and_eq_true_iff.1 he
    obtain ⟨hnames, havoids⟩ := Bool.and_eq_true_iff.1 havoids
    obtain ⟨havoids₁, havoids₂⟩ := Bool.and_eq_true_iff.1 havoids
    obtain ⟨hclone₁, hclone₂⟩ := both_clone.1 hclone
    rw [substitute_var, eval, eval, eval_substitute_var huniform value he₁ havoids₁ hclone₁ hvalue,
      apply_ite (eval M calls)]
    refine bind_congr fun v => ?_
    cases hmatch : match_pat M binder v with
    | none => rfl
    | some bindings =>
      have hbound := bound_match_pat binder hbinder v hmatch
      refine scope_substitute huniform hvalue ?_ ?_ fun hbinds env' hvalue' => ?_
      · rw [hbound, pat_binds_target_iff binder hbinder]
      · rw [hbound]
        exact of_decide_eq_true hnames
      · rw [hbinds, if_neg (by simp)] at hclone₂
        exact eval_substitute_var huniform body he₂ havoids₂ hclone₂ hvalue'
  | If cond then_ else_ =>
    obtain ⟨he₁, he⟩ := Bool.and_eq_true_iff.1 he
    obtain ⟨he₂, he₃⟩ := Bool.and_eq_true_iff.1 he
    obtain ⟨havoids₁, havoids⟩ := Bool.and_eq_true_iff.1 havoids
    obtain ⟨havoids₂, havoids₃⟩ := Bool.and_eq_true_iff.1 havoids
    obtain ⟨hclone₁, hclone⟩ := both_clone.1 hclone
    obtain ⟨hclone₂, hclone₃⟩ := both_clone.1 hclone
    rw [substitute_var, eval, eval, eval_substitute_var huniform cond he₁ havoids₁ hclone₁ hvalue,
      eval_substitute_var huniform then_ he₂ havoids₂ hclone₂ hvalue,
      eval_substitute_var huniform else_ he₃ havoids₃ hclone₃ hvalue]
  | Match scrutinee arms =>
    obtain ⟨he₁, he₂⟩ := Bool.and_eq_true_iff.1 he
    obtain ⟨havoids₁, havoids₂⟩ := Bool.and_eq_true_iff.1 havoids
    obtain ⟨hclone₁, hclone₂⟩ := both_clone.1 hclone
    rw [substitute_var, eval, eval, eval_substitute_var huniform scrutinee he₁ havoids₁ hclone₁ hvalue]
    exact bind_congr fun v => eval_substitute_arms huniform arms he₂ havoids₂ hclone₂ v hvalue
  | Call callee args pin on_form =>
    cases callee with
    | Func id =>
      rw [substitute_var, eval, eval, eval_substitute_all huniform args he havoids hclone hvalue]
    | Kernel k =>
      rw [substitute_var, eval, eval, eval_substitute_each huniform args he havoids hclone hvalue]
    | Ffi ident asserted =>
      rw [substitute_var, eval, eval, eval_substitute_all huniform args he havoids hclone hvalue]
  | Tuple items =>
    rw [substitute_var, eval, eval, eval_substitute_all huniform items he havoids hclone hvalue]
  | List elem items =>
    rw [substitute_var, eval, eval, eval_substitute_all huniform items he havoids hclone hvalue]
  | Cons head tail =>
    obtain ⟨he₁, he₂⟩ := Bool.and_eq_true_iff.1 he
    obtain ⟨havoids₁, havoids₂⟩ := Bool.and_eq_true_iff.1 havoids
    obtain ⟨hclone₁, hclone₂⟩ := both_clone.1 hclone
    rw [substitute_var, eval, eval, eval_substitute_var huniform head he₁ havoids₁ hclone₁ hvalue,
      eval_substitute_var huniform tail he₂ havoids₂ hclone₂ hvalue]
  | ListIndexClone list index =>
    rw [substitute_var, eval, eval, eval_substitute_var huniform list he havoids hclone hvalue]
  | ListLenCheck list len exact_ =>
    rw [substitute_var, eval, eval, eval_substitute_var huniform list he havoids hclone hvalue]
  | Record fields ty =>
    rw [substitute_var, eval, eval, eval_substitute_fields huniform fields he havoids hclone hvalue]
  | Access record field field_ty =>
    rw [substitute_var, eval, eval, eval_substitute_var huniform record he havoids hclone hvalue]
  | Update record fields =>
    obtain ⟨he₁, he₂⟩ := Bool.and_eq_true_iff.1 he
    obtain ⟨havoids₁, havoids₂⟩ := Bool.and_eq_true_iff.1 havoids
    obtain ⟨hclone₁, hclone₂⟩ := both_clone.1 hclone
    rw [substitute_var, eval, eval, eval_substitute_var huniform record he₁ havoids₁ hclone₁ hvalue,
      eval_substitute_fields huniform fields he₂ havoids₂ hclone₂ hvalue]
  | Lambda params ret body =>
    obtain ⟨-, he⟩ := Bool.and_eq_true_iff.1 he
    obtain ⟨hparams, havoids⟩ := Bool.and_eq_true_iff.1 havoids
    rw [substitute_var, eval, eval, apply_ite (eval M calls), closure_substitute huniform hvalue hparams]
    intro hbinds env' hvalue'
    rw [scan_free_target_into, hbinds, if_neg (by simp)] at hclone
    exact eval_substitute_var huniform body he havoids hclone hvalue'
  | SharedLambda params ret body =>
    obtain ⟨-, he⟩ := Bool.and_eq_true_iff.1 he
    obtain ⟨hparams, havoids⟩ := Bool.and_eq_true_iff.1 havoids
    rw [substitute_var, eval, eval, apply_ite (eval M calls), closure_substitute huniform hvalue hparams]
    intro hbinds env' hvalue'
    rw [scan_free_target_into, hbinds, if_neg (by simp)] at hclone
    exact eval_substitute_var huniform body he havoids hclone hvalue'
  | OnceLambda params ret body capture =>
    obtain ⟨-, he⟩ := Bool.and_eq_true_iff.1 he
    obtain ⟨hparams, havoids⟩ := Bool.and_eq_true_iff.1 havoids
    rw [substitute_var, eval, eval, apply_ite (eval M calls), closure_substitute huniform hvalue hparams]
    intro hbinds env' hvalue'
    rw [scan_free_target_into, hbinds, if_neg (by simp)] at hclone
    exact eval_substitute_var huniform body he havoids hclone hvalue'
  | Apply func args =>
    obtain ⟨he₁, he₂⟩ := Bool.and_eq_true_iff.1 he
    obtain ⟨havoids₁, havoids₂⟩ := Bool.and_eq_true_iff.1 havoids
    obtain ⟨hclone₁, hclone₂⟩ := both_clone.1 hclone
    rw [substitute_var, eval, eval, eval_substitute_var huniform func he₁ havoids₁ hclone₁ hvalue,
      eval_substitute_all huniform args he₂ havoids₂ hclone₂ hvalue]
  | TaskSeq effect rest =>
    obtain ⟨he₁, he₂⟩ := Bool.and_eq_true_iff.1 he
    obtain ⟨havoids₁, havoids₂⟩ := Bool.and_eq_true_iff.1 havoids
    obtain ⟨hclone₁, hclone₂⟩ := both_clone.1 hclone
    rw [substitute_var, eval, eval, eval_substitute_var huniform effect he₁ havoids₁ hclone₁ hvalue,
      eval_substitute_var huniform rest he₂ havoids₂ hclone₂ hvalue]
  | _ => rfl

theorem eval_substitute_all (huniform : each_binder uniform replacement = true)
    (es : List (Expr κ τ)) (hes : each_binder_all uniform es = true)
    (havoids : each_binder_all (avoids (free_vars replacement)) es = true)
    (hclone : (scan_all true target es).2 = false) {env : Env V}
    (hvalue : eval M calls replacement env = pure a) :
    eval_all M calls (substitute_all target replacement es) env =
      eval_all M calls es (env.extend [(target, a)]) := by
  cases es with
  | nil => rfl
  | cons e es =>
    obtain ⟨he₁, he₂⟩ := Bool.and_eq_true_iff.1 hes
    obtain ⟨havoids₁, havoids₂⟩ := Bool.and_eq_true_iff.1 havoids
    obtain ⟨hclone₁, hclone₂⟩ := both_clone.1 hclone
    rw [substitute_all, eval_all, eval_all,
      eval_substitute_var huniform e he₁ havoids₁ hclone₁ hvalue,
      eval_substitute_all huniform es he₂ havoids₂ hclone₂ hvalue]

theorem eval_substitute_each (huniform : each_binder uniform replacement = true)
    (es : List (Expr κ τ)) (hes : each_binder_all uniform es = true)
    (havoids : each_binder_all (avoids (free_vars replacement)) es = true)
    (hclone : (scan_all true target es).2 = false) {env : Env V}
    (hvalue : eval M calls replacement env = pure a) :
    eval_each M calls (substitute_all target replacement es) env =
      eval_each M calls es (env.extend [(target, a)]) := by
  cases es with
  | nil => rfl
  | cons e es =>
    obtain ⟨he₁, he₂⟩ := Bool.and_eq_true_iff.1 hes
    obtain ⟨havoids₁, havoids₂⟩ := Bool.and_eq_true_iff.1 havoids
    obtain ⟨hclone₁, hclone₂⟩ := both_clone.1 hclone
    rw [substitute_all, eval_each, eval_each,
      eval_substitute_var huniform e he₁ havoids₁ hclone₁ hvalue,
      eval_substitute_each huniform es he₂ havoids₂ hclone₂ hvalue]

theorem eval_substitute_fields (huniform : each_binder uniform replacement = true)
    (fields : List (Symbol × Expr κ τ)) (hfields : each_binder_fields uniform fields = true)
    (havoids : each_binder_fields (avoids (free_vars replacement)) fields = true)
    (hclone : (scan_fields true target fields).2 = false) {env : Env V}
    (hvalue : eval M calls replacement env = pure a) :
    eval_fields M calls (substitute_fields target replacement fields) env =
      eval_fields M calls fields (env.extend [(target, a)]) := by
  cases fields with
  | nil => rfl
  | cons entry fields =>
    obtain ⟨field, e⟩ := entry
    obtain ⟨he₁, he₂⟩ := Bool.and_eq_true_iff.1 hfields
    obtain ⟨havoids₁, havoids₂⟩ := Bool.and_eq_true_iff.1 havoids
    obtain ⟨hclone₁, hclone₂⟩ := both_clone.1 hclone
    rw [substitute_fields, eval_fields, eval_fields,
      eval_substitute_var huniform e he₁ havoids₁ hclone₁ hvalue,
      eval_substitute_fields huniform fields he₂ havoids₂ hclone₂ hvalue]

theorem eval_substitute_arms (huniform : each_binder uniform replacement = true)
    (arms : List (Arm κ τ)) (harms : each_binder_arms uniform arms = true)
    (havoids : each_binder_arms (avoids (free_vars replacement)) arms = true)
    (hclone : (scan_arms true target arms).2 = false) (v : V) {env : Env V}
    (hvalue : eval M calls replacement env = pure a) :
    eval_arms M calls (substitute_arms target replacement arms) v env =
      eval_arms M calls arms v (env.extend [(target, a)]) := by
  cases arms with
  | nil => rfl
  | cons arm arms =>
    obtain ⟨pat, body, guard⟩ := arm
    obtain ⟨hpat, he⟩ := Bool.and_eq_true_iff.1 harms
    obtain ⟨he₁, he⟩ := Bool.and_eq_true_iff.1 he
    obtain ⟨he₂, he₃⟩ := Bool.and_eq_true_iff.1 he
    obtain ⟨hnames, havoids⟩ := Bool.and_eq_true_iff.1 havoids
    obtain ⟨havoids₁, havoids⟩ := Bool.and_eq_true_iff.1 havoids
    obtain ⟨havoids₂, havoids₃⟩ := Bool.and_eq_true_iff.1 havoids
    obtain ⟨hclone₁, hclone₂⟩ := both_clone.1 hclone
    have hlater := eval_substitute_arms huniform arms he₃ havoids₃ hclone₂ v hvalue
    rw [substitute_arms, eval_arms, eval_arms, apply_ite (eval_guard M calls), apply_ite (eval M calls)]
    cases hmatch : match_pat M pat v with
    | none => exact hlater
    | some bindings =>
      have hbound := bound_match_pat pat hpat v hmatch
      have hbinds : pat_binds_target target pat = true ↔ target ∈ bound bindings := by
        rw [hbound, pat_binds_target_iff pat hpat]
      have hnames : Disjoint (bound bindings) (free_vars replacement) := by
        rw [hbound]
        exact of_decide_eq_true hnames
      have hparts : pat_binds_target target pat = false →
          (scan_free_target_into true target body).2 = false ∧
            (scan_guard true target guard).2 = false := by
        intro hnot
        rw [hnot, if_neg (by simp), if_pos rfl] at hclone₁
        exact both_clone.1 hclone₁
      dsimp only
      rw [scope_substitute huniform hvalue hbinds hnames fun hnot env' hvalue' =>
          eval_substitute_guard huniform guard he₁ havoids₁ (hparts hnot).2 hvalue',
        scope_substitute huniform hvalue hbinds hnames fun hnot env' hvalue' =>
          eval_substitute_var huniform body he₂ havoids₂ (hparts hnot).1 hvalue', hlater]

theorem eval_substitute_guard (huniform : each_binder uniform replacement = true)
    (guard : Option (Expr κ τ)) (hguard : each_binder_guard uniform guard = true)
    (havoids : each_binder_guard (avoids (free_vars replacement)) guard = true)
    (hclone : (scan_guard true target guard).2 = false) {env : Env V}
    (hvalue : eval M calls replacement env = pure a) :
    eval_guard M calls (substitute_guard target replacement guard) env =
      eval_guard M calls guard (env.extend [(target, a)]) := by
  cases guard with
  | none => rfl
  | some guard =>
    rw [substitute_guard, eval_guard, eval_guard,
      eval_substitute_var huniform guard hguard havoids hclone hvalue]

end

end

/-- A let that is inlined means what it meant, when its value can be evaluated again: no binder of the
body captures a name of the value, and no guard clones the value. -/
theorem eval_inlined_let_body [LawfulMonad m] (M : Meaning κ V m) (calls : FuncId → List V → m V)
    (ir_type_contains_task : τ → Bool) {name : Symbol} {value body body' : Expr κ τ}
    (hinlined : inlined_let_body ir_type_contains_task name value body = some body')
    (huniform : each_binder uniform (.Let name value body) = true)
    (havoids : each_binder (avoids (free_vars value)) body = true)
    (hguards : (scan_free_target_into true name body).2 = (scan_free_target body name).2) {env : Env V}
    {a : V} (hvalue : eval M calls value env = pure a) :
    eval M calls body' env = eval M calls (.Let name value body) env := by
  obtain ⟨-, he⟩ := Bool.and_eq_true_iff.1 huniform
  obtain ⟨he₁, he₂⟩ := Bool.and_eq_true_iff.1 he
  rw [inlined_let_body] at hinlined
  split_ifs at hinlined with hlet
  obtain rfl := Option.some.inj hinlined
  have hclone : (scan_free_target body name).2 = false := by
    have hnot := (Bool.and_eq_true_iff.1 hlet).2
    simpa [scan_free_target] using hnot
  rw [eval, hvalue, pure_bind]
  exact eval_substitute_var he₁ body he₂ havoids (hguards.trans hclone) hvalue

/-- `let x = [y] in let z = 3 in z + (x + x)`, where the elements of the list hold tasks. -/
theorem eval_inlined_let_body_list :
    eval integers (fun _ _ => none) (.Let 2 (.Int 3) (.BinOp .IntAdd (.Var 2)
        (.BinOp .IntAdd (.List true [.Var 1]) (.List true [.Var 1]))))
          (fun s => if s = 1 then some 5 else none) = some 3 := by
  have hlet : _ = eval integers (fun _ _ => none) (.Let 0 (.List true [.Var 1]) (.Let 2 (.Int 3)
      (.BinOp .IntAdd (.Var 2) (.BinOp .IntAdd (.Var 0) (.Var 0)))))
        (fun s => if s = 1 then some 5 else none) :=
    eval_inlined_let_body integers (fun _ _ => none) id rfl (by decide) (by decide) rfl (a := 0) rfl
  exact hlet.trans rfl

end IpeLang.Ir
