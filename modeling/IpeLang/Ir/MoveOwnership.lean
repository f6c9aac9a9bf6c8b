import IpeLang.Ir.Captures

/-!
# Who owns a value

A name that is used more than once is cloned at each use but the last.

* `count_var_uses`: the most uses on a way through an expression;
* `rewrite_multiuse_clones`: a clone for each use while more are to come;
* `rewrite_multiuse_clones_owned`: on each way only the last use can take the value.
-/

namespace IpeLang.Ir

open IpeLang.Lib

variable {κ τ : Type}

/-! ### The count -/

section

variable (sym : Symbol)

mutual

/-- A closure with this body takes the name. The base of an update and guards are not looked at. -/
def lambda_body_refs_sym : Expr κ τ → Bool
  | .Var s => s == sym
  | .CloneVar s => s == sym
  | .Lambda params _ body => if binds_param sym params then false else lambda_body_refs_sym body
  | .SharedLambda params _ body => if binds_param sym params then false else lambda_body_refs_sym body
  | .OnceLambda params _ body _ => if binds_param sym params then false else lambda_body_refs_sym body
  | .Let name value body =>
    lambda_body_refs_sym value || (if name == sym then false else lambda_body_refs_sym body)
  | .Destructure binder value body =>
    lambda_body_refs_sym value ||
      (if pat_binds_symbol binder sym then false else lambda_body_refs_sym body)
  | .Match scrutinee arms => lambda_body_refs_sym scrutinee || any_arm_refs_sym arms
  | .TailLoop params body => if binds_param sym params then false else lambda_body_refs_sym body
  | .BinOp _ lhs rhs => lambda_body_refs_sym lhs || lambda_body_refs_sym rhs
  | .If cond then_ else_ =>
    lambda_body_refs_sym cond || (lambda_body_refs_sym then_ || lambda_body_refs_sym else_)
  | .Call _ args _ _ => any_refs_sym args
  | .Apply func args => lambda_body_refs_sym func || any_refs_sym args
  | .Tuple items => any_refs_sym items
  | .List _ items => any_refs_sym items
  | .Cons head tail => lambda_body_refs_sym head || lambda_body_refs_sym tail
  | .ListIndexClone list _ => lambda_body_refs_sym list
  | .ListLenCheck list _ _ => lambda_body_refs_sym list
  | .Record fields _ => any_field_refs_sym fields
  | .Update _ fields => any_field_refs_sym fields
  | .Ctor _ _ _ args => any_refs_sym args
  | .TaskSeq effect rest => lambda_body_refs_sym effect || lambda_body_refs_sym rest
  | .TailRecur args => any_refs_sym args
  | .Access record _ _ => lambda_body_refs_sym record
  | .Int _ => false
  | .Bool _ => false
  | .Float _ => false
  | .Str _ => false
  | .CustomElementRef _ _ => false
  | .Char _ => false
  | .Unit => false
  | .FuncValue _ _ => false

def any_refs_sym : List (Expr κ τ) → Bool
  | [] => false
  | e :: es => lambda_body_refs_sym e || any_refs_sym es

def any_field_refs_sym : List (Symbol × Expr κ τ) → Bool
  | [] => false
  | (_, e) :: fields => lambda_body_refs_sym e || any_field_refs_sym fields

def any_arm_refs_sym : List (Arm κ τ) → Bool
  | [] => false
  | .mk pat body _ :: arms =>
    (!pat_binds_symbol pat sym && lambda_body_refs_sym body) || any_arm_refs_sym arms

end

mutual

/-- The uses on the way with the most of them. A closure that takes the name uses it once. -/
def count_var_uses : Expr κ τ → ℕ
  | .Var s => if s = sym then 1 else 0
  | .CloneVar s => if s = sym then 1 else 0
  | .Lambda _ _ body => if lambda_body_refs_sym sym body then 1 else 0
  | .SharedLambda _ _ body => if lambda_body_refs_sym sym body then 1 else 0
  | .OnceLambda _ _ body _ => if lambda_body_refs_sym sym body then 1 else 0
  | .Let name value body => count_var_uses value + (if name == sym then 0 else count_var_uses body)
  | .Destructure binder value body =>
    count_var_uses value + (if pat_binds_symbol binder sym then 0 else count_var_uses body)
  | .If cond then_ else_ => count_var_uses cond + max (count_var_uses then_) (count_var_uses else_)
  | .Match scrutinee arms => count_var_uses scrutinee + count_arm_uses arms
  | .BinOp _ lhs rhs => count_var_uses lhs + count_var_uses rhs
  | .Call _ args _ _ => count_all_uses args
  | .Apply func args => count_var_uses func + count_all_uses args
  | .Tuple items => count_all_uses items
  | .List _ items => count_all_uses items
  | .Cons head tail => count_var_uses head + count_var_uses tail
  | .ListIndexClone list _ => count_var_uses list
  | .ListLenCheck list _ _ => count_var_uses list
  | .Record fields _ => count_field_uses fields
  | .Update record fields => count_var_uses record + count_field_uses fields
  | .Ctor _ _ _ args => count_all_uses args
  | .TaskSeq effect rest => count_var_uses effect + count_var_uses rest
  | .TailLoop params body => if binds_param sym params then 0 else count_var_uses body
  | .TailRecur args => count_all_uses args
  | .Access record _ _ => count_var_uses record
  | .Int _ => 0
  | .Bool _ => 0
  | .Float _ => 0
  | .Str _ => 0
  | .CustomElementRef _ _ => 0
  | .Char _ => 0
  | .Unit => 0
  | .FuncValue _ _ => 0

def count_all_uses : List (Expr κ τ) → ℕ
  | [] => 0
  | e :: es => count_var_uses e + count_all_uses es

def count_field_uses : List (Symbol × Expr κ τ) → ℕ
  | [] => 0
  | (_, e) :: fields => count_var_uses e + count_field_uses fields

/-- The most that an arm uses, with its guard. -/
def count_arm_uses : List (Arm κ τ) → ℕ
  | [] => 0
  | .mk pat body guard :: arms =>
    max (if pat_binds_symbol pat sym then 0 else count_guard_uses guard + count_var_uses body)
      (count_arm_uses arms)

def count_guard_uses : Option (Expr κ τ) → ℕ
  | none => 0
  | some guard => count_var_uses guard

end

/-- The most that the body of an arm uses. -/
def match_arm_peak_uses : List (Arm κ τ) → ℕ
  | [] => 0
  | .mk pat body _ :: arms =>
    max (if pat_binds_symbol pat sym then 0 else count_var_uses sym body) (match_arm_peak_uses arms)

/-! ### The rewrite -/

/-- A closure that takes the name, and what is left. While more uses are to come it takes a clone. -/
def capture (remaining : ℕ) (refs : Bool) (untouched forced : Expr κ τ) : Expr κ τ × ℕ :=
  if refs then
    if remaining > 1 then (.Let sym (.CloneVar sym) forced, remaining - 1) else (forced, remaining - 1)
  else (untouched, remaining)

variable (reversed : κ → Bool)

mutual

/-- `remaining` counts the uses to come, with those of the expression; it is handed on to what is
evaluated next. -/
def rewrite_multiuse_clones (remaining : ℕ) (expr : Expr κ τ) : Expr κ τ × ℕ :=
  if remaining = 0 then (expr, 0) else
  match expr with
  | .Var s =>
    if s = sym then
      if remaining > 1 then (.CloneVar s, remaining - 1) else (.Var s, remaining - 1)
    else (.Var s, remaining)
  | .CloneVar s => if s = sym then (.CloneVar s, remaining - 1) else (.CloneVar s, remaining)
  | .Lambda params ret body =>
    capture sym remaining (lambda_body_refs_sym sym body) (.Lambda params ret body)
      (.Lambda params ret (force_shared_capture_clones sym body))
  | .SharedLambda params ret body =>
    capture sym remaining (lambda_body_refs_sym sym body) (.SharedLambda params ret body)
      (.SharedLambda params ret (force_shared_capture_clones sym body))
  | .OnceLambda params ret body capt =>
    capture sym remaining (lambda_body_refs_sym sym body) (.OnceLambda params ret body capt)
      (.OnceLambda params ret (force_shared_capture_clones sym body) capt)
  | .Int n => (.Int n, remaining)
  | .Bool b => (.Bool b, remaining)
  | .Float bits => (.Float bits, remaining)
  | .Str s => (.Str s, remaining)
  | .CustomElementRef tag js_path => (.CustomElementRef tag js_path, remaining)
  | .Char c => (.Char c, remaining)
  | .Unit => (.Unit, remaining)
  | .FuncValue callee ty => (.FuncValue callee ty, remaining)
  | .BinOp op lhs rhs =>
    let lhs' := rewrite_multiuse_clones remaining lhs
    let rhs' := rewrite_multiuse_clones lhs'.2 rhs
    (.BinOp op lhs'.1 rhs'.1, rhs'.2)
  -- One of the branches runs. Each counts for itself, and one use more if the name is used after it.
  | .If cond then_ else_ =>
    let cond' := rewrite_multiuse_clones remaining cond
    let peak := max (count_var_uses sym then_) (count_var_uses sym else_)
    let phantom := if cond'.2 - peak > 0 then 1 else 0
    (.If cond'.1 (rewrite_multiuse_clones (count_var_uses sym then_ + phantom) then_).1
      (rewrite_multiuse_clones (count_var_uses sym else_ + phantom) else_).1, cond'.2 - peak)
  | .Let name value body =>
    let value' := rewrite_multiuse_clones remaining value
    let body' := if name == sym then (body, value'.2) else rewrite_multiuse_clones value'.2 body
    (.Let name value'.1 body'.1, body'.2)
  | .Destructure binder value body =>
    let value' := rewrite_multiuse_clones remaining value
    let body' :=
      if pat_binds_symbol binder sym then (body, value'.2) else rewrite_multiuse_clones value'.2 body
    (.Destructure binder value'.1 body'.1, body'.2)
  | .Match scrutinee arms =>
    let scrutinee' := rewrite_multiuse_clones remaining scrutinee
    let peak := match_arm_peak_uses sym arms
    let phantom := if scrutinee'.2 - peak > 0 then 1 else 0
    (.Match scrutinee'.1 (rewrite_multiuse_arms phantom arms), scrutinee'.2 - peak)
  | .Call callee args pin on_form =>
    let args' :=
      if callee.evaluates_args_reversed reversed then rewrite_multiuse_reversed remaining args
      else rewrite_multiuse_all remaining args
    (.Call callee args'.1 pin on_form, args'.2)
  | .Apply func args =>
    let func' := rewrite_multiuse_clones remaining func
    let args' := rewrite_multiuse_all func'.2 args
    (.Apply func'.1 args'.1, args'.2)
  | .Tuple items =>
    let items' := rewrite_multiuse_all remaining items
    (.Tuple items'.1, items'.2)
  | .List elem items =>
    let items' := rewrite_multiuse_all remaining items
    (.List elem items'.1, items'.2)
  | .Cons head tail =>
    let head' := rewrite_multiuse_clones remaining head
    let tail' := rewrite_multiuse_clones head'.2 tail
    (.Cons head'.1 tail'.1, tail'.2)
  | .ListIndexClone list index =>
    let list' := rewrite_multiuse_clones remaining list
    (.ListIndexClone list'.1 index, list'.2)
  | .ListLenCheck list len exact =>
    let list' := rewrite_multiuse_clones remaining list
    (.ListLenCheck list'.1 len exact, list'.2)
  | .Record fields ty =>
    let fields' := rewrite_multiuse_fields remaining fields
    (.Record fields'.1 ty, fields'.2)
  | .Access record field field_ty =>
    let record' := rewrite_multiuse_clones remaining record
    (.Access record'.1 field field_ty, record'.2)
  -- The fields are emitted before the base.
  | .Update record fields =>
    let fields' := rewrite_multiuse_fields remaining fields
    let record' := rewrite_multiuse_clones fields'.2 record
    (.Update record'.1 fields'.1, record'.2)
  | .Ctor home ty variant args =>
    let args' := rewrite_multiuse_all remaining args
    (.Ctor home ty variant args'.1, args'.2)
  | .TaskSeq effect rest =>
    let effect' := rewrite_multiuse_clones remaining effect
    let rest' := rewrite_multiuse_clones effect'.2 rest
    (.TaskSeq effect'.1 rest'.1, rest'.2)
  | .TailLoop params body =>
    let body' := if binds_param sym params then (body, remaining) else rewrite_multiuse_clones remaining body
    (.TailLoop params body'.1, body'.2)
  | .TailRecur args =>
    let args' := rewrite_multiuse_all remaining args
    (.TailRecur args'.1, args'.2)

def rewrite_multiuse_all (remaining : ℕ) : List (Expr κ τ) → List (Expr κ τ) × ℕ
  | [] => ([], remaining)
  | e :: es =>
    let e' := rewrite_multiuse_clones remaining e
    let es' := rewrite_multiuse_all e'.2 es
    (e'.1 :: es'.1, es'.2)

/-- The last argument first. -/
def rewrite_multiuse_reversed (remaining : ℕ) : List (Expr κ τ) → List (Expr κ τ) × ℕ
  | [] => ([], remaining)
  | e :: es =>
    let es' := rewrite_multiuse_reversed remaining es
    let e' := rewrite_multiuse_clones es'.2 e
    (e'.1 :: es'.1, e'.2)

def rewrite_multiuse_fields (remaining : ℕ) :
    List (Symbol × Expr κ τ) → List (Symbol × Expr κ τ) × ℕ
  | [] => ([], remaining)
  | (name, e) :: fields =>
    let e' := rewrite_multiuse_clones remaining e
    let fields' := rewrite_multiuse_fields e'.2 fields
    ((name, e'.1) :: fields'.1, fields'.2)

/-- Guards stay as they are. -/
def rewrite_multiuse_arms (phantom : ℕ) : List (Arm κ τ) → List (Arm κ τ)
  | [] => []
  | .mk pat body guard :: arms =>
    .mk pat (if pat_binds_symbol pat sym then body
      else (rewrite_multiuse_clones (count_var_uses sym body + phantom) body).1) guard ::
      rewrite_multiuse_arms phantom arms

end

end

/-! ### What the count sees -/

section

variable (sym : Symbol)

mutual

/-- The count sees all uses of the name: no guard and no loop uses it, and a closure that takes it, or the
continuation of a task that does, reads it somewhere else than in the base of an update. -/
def plain : Expr κ τ → Bool
  | .Lambda params _ body =>
    decide (sym ∉ free_vars body \ param_names params) || lambda_body_refs_sym sym body
  | .SharedLambda params _ body =>
    decide (sym ∉ free_vars body \ param_names params) || lambda_body_refs_sym sym body
  | .OnceLambda params _ body _ =>
    decide (sym ∉ free_vars body \ param_names params) || lambda_body_refs_sym sym body
  | .Let name value body => plain value && (name == sym || plain body)
  | .Destructure binder value body => plain value && (pat_binds_symbol binder sym || plain body)
  | .If cond then_ else_ => plain cond && (plain then_ && plain else_)
  | .Match scrutinee arms => plain scrutinee && plain_arms arms
  | .BinOp _ lhs rhs => plain lhs && plain rhs
  | .Call _ args _ _ => plain_all args
  | .Apply func args => plain func && plain_all args
  | .Tuple items => plain_all items
  | .List _ items => plain_all items
  | .Cons head tail => plain head && plain tail
  | .ListIndexClone list _ => plain list
  | .ListLenCheck list _ _ => plain list
  | .Record fields _ => plain_fields fields
  | .Update record fields => plain record && plain_fields fields
  | .Ctor _ _ _ args => plain_all args
  | .TaskSeq effect rest =>
    plain effect && (plain rest && (decide (sym ∉ free_vars rest) || count_var_uses sym rest != 0))
  | .TailLoop params body => binds_param sym params || (count_var_uses sym body == 0 && plain body)
  | .TailRecur args => plain_all args
  | .Access record _ _ => plain record
  | _ => true

def plain_all : List (Expr κ τ) → Bool
  | [] => true
  | e :: es => plain e && plain_all es

def plain_fields : List (Symbol × Expr κ τ) → Bool
  | [] => true
  | (_, e) :: fields => plain e && plain_fields fields

def plain_arms : List (Arm κ τ) → Bool
  | [] => true
  | .mk pat body guard :: arms =>
    (pat_binds_symbol pat sym || ((count_guard_uses sym guard == 0 && plain_guard guard) && plain body)) &&
      plain_arms arms

def plain_guard : Option (Expr κ τ) → Bool
  | none => true
  | some guard => plain guard

end

variable (reversed : κ → Bool)

mutual

/-- The continuation of a task that uses the name is the last to use it, where `later` uses come after
the expression. -/
def continues_last : Expr κ τ → (later : ℕ) → Bool
  | .TaskSeq effect rest, later =>
    continues_last effect (count_var_uses sym rest + later) &&
      (continues_last rest later && (count_var_uses sym rest == 0 || later == 0))
  | .Let name value body, later =>
    continues_last value ((if name == sym then 0 else count_var_uses sym body) + later) &&
      (name == sym || continues_last body later)
  | .Destructure binder value body, later =>
    continues_last value ((if pat_binds_symbol binder sym then 0 else count_var_uses sym body) + later) &&
      (pat_binds_symbol binder sym || continues_last body later)
  | .If cond then_ else_, later =>
    continues_last cond (max (count_var_uses sym then_) (count_var_uses sym else_) + later) &&
      (continues_last then_ (if later > 0 then 1 else 0) &&
        continues_last else_ (if later > 0 then 1 else 0))
  | .Match scrutinee arms, later =>
    continues_last scrutinee (match_arm_peak_uses sym arms + later) &&
      arms_continue_last arms (if later > 0 then 1 else 0)
  | .BinOp _ lhs rhs, later =>
    continues_last lhs (count_var_uses sym rhs + later) && continues_last rhs later
  | .Call callee args _ _, later =>
    if callee.evaluates_args_reversed reversed then reversed_continue_last args later
    else all_continue_last args later
  | .Apply func args, later =>
    continues_last func (count_all_uses sym args + later) && all_continue_last args later
  | .Tuple items, later => all_continue_last items later
  | .List _ items, later => all_continue_last items later
  | .Cons head tail, later =>
    continues_last head (count_var_uses sym tail + later) && continues_last tail later
  | .ListIndexClone list _, later => continues_last list later
  | .ListLenCheck list _ _, later => continues_last list later
  | .Record fields _, later => fields_continue_last fields later
  | .Access record _ _, later => continues_last record later
  | .Update record fields, later =>
    fields_continue_last fields (count_var_uses sym record + later) && continues_last record later
  | .Ctor _ _ _ args, later => all_continue_last args later
  | .TailLoop params body, later => binds_param sym params || continues_last body later
  | .TailRecur args, later => all_continue_last args later
  | _, _ => true

def all_continue_last : List (Expr κ τ) → (later : ℕ) → Bool
  | [], _ => true
  | e :: es, later => continues_last e (count_all_uses sym es + later) && all_continue_last es later

def reversed_continue_last : List (Expr κ τ) → (later : ℕ) → Bool
  | [], _ => true
  | e :: es, later => reversed_continue_last es (count_var_uses sym e + later) && continues_last e later

def fields_continue_last : List (Symbol × Expr κ τ) → (later : ℕ) → Bool
  | [], _ => true
  | (_, e) :: fields, later =>
    continues_last e (count_field_uses sym fields + later) && fields_continue_last fields later

def arms_continue_last : List (Arm κ τ) → (later : ℕ) → Bool
  | [], _ => true
  | .mk pat body _ :: arms, later =>
    (pat_binds_symbol pat sym || continues_last body later) && arms_continue_last arms later

end

end

/-! ### A name that is not used -/

section

variable {sym : Symbol} {reversed : κ → Bool}

theorem rewrite_zero (e : Expr κ τ) : rewrite_multiuse_clones sym reversed 0 e = (e, 0) := by
  rw [rewrite_multiuse_clones.eq_def, if_pos rfl]

theorem refs_of_count {refs : Bool} (h : (if refs = true then 1 else 0) = 0) : refs = false := by
  cases refs with
  | true => cases h
  | false => rfl

theorem capture_unread {n : ℕ} {refs : Bool} (h : (if refs = true then 1 else 0) = 0)
    (untouched forced : Expr κ τ) : capture sym n refs untouched forced = (untouched, n) := by
  rw [capture, refs_of_count h]
  rfl

theorem peak_of_unused (arms : List (Arm κ τ)) (h : count_arm_uses sym arms = 0) :
    match_arm_peak_uses sym arms = 0 := by
  induction arms with
  | nil => rfl
  | cons arm arms ih =>
    obtain ⟨pat, body, guard⟩ := arm
    rw [count_arm_uses] at h
    rw [match_arm_peak_uses, ih (by omega)]
    split_ifs at h ⊢
    · rfl
    · omega

mutual

/-- Where no use is counted there is nothing to rewrite. -/
theorem rewrite_unused (e : Expr κ τ) (h : count_var_uses sym e = 0) (n : ℕ) :
    rewrite_multiuse_clones sym reversed n e = (e, n) := by
  by_cases hn : n = 0
  · rw [hn, rewrite_zero]
  · cases e with
    | Var s =>
      rw [count_var_uses] at h
      rw [rewrite_multiuse_clones, if_neg hn]
      exact if_neg fun hs => one_ne_zero ((if_pos hs).symm.trans h)
    | CloneVar s =>
      rw [count_var_uses] at h
      rw [rewrite_multiuse_clones, if_neg hn]
      exact if_neg fun hs => one_ne_zero ((if_pos hs).symm.trans h)
    | Lambda params ret body => rw [rewrite_multiuse_clones, if_neg hn, capture_unread h]
    | SharedLambda params ret body => rw [rewrite_multiuse_clones, if_neg hn, capture_unread h]
    | OnceLambda params ret body capt => rw [rewrite_multiuse_clones, if_neg hn, capture_unread h]
    | Let name value body =>
      rw [count_var_uses] at h
      obtain ⟨h₁, h₂⟩ := Nat.add_eq_zero_iff.1 h
      rw [rewrite_multiuse_clones, if_neg hn]
      dsimp only
      rw [rewrite_unused value h₁]
      split_ifs at h₂ ⊢
      · rfl
      · rw [rewrite_unused body h₂]
    | Destructure binder value body =>
      rw [count_var_uses] at h
      obtain ⟨h₁, h₂⟩ := Nat.add_eq_zero_iff.1 h
      rw [rewrite_multiuse_clones, if_neg hn]
      dsimp only
      rw [rewrite_unused value h₁]
      split_ifs at h₂ ⊢
      · rfl
      · rw [rewrite_unused body h₂]
    | If cond then_ else_ =>
      rw [count_var_uses] at h
      obtain ⟨h₁, h₂⟩ := Nat.add_eq_zero_iff.1 h
      have hthen : count_var_uses sym then_ = 0 := by omega
      have helse : count_var_uses sym else_ = 0 := by omega
      rw [rewrite_multiuse_clones, if_neg hn]
      dsimp only
      rw [rewrite_unused cond h₁, rewrite_unused then_ hthen,
        rewrite_unused else_ helse, h₂]
      rfl
    | Match scrutinee arms =>
      rw [count_var_uses] at h
      obtain ⟨h₁, h₂⟩ := Nat.add_eq_zero_iff.1 h
      rw [rewrite_multiuse_clones, if_neg hn]
      dsimp only
      rw [rewrite_unused scrutinee h₁, rewrite_arms_unused arms h₂,
        peak_of_unused arms h₂]
      rfl
    | BinOp op lhs rhs =>
      rw [count_var_uses] at h
      obtain ⟨h₁, h₂⟩ := Nat.add_eq_zero_iff.1 h
      rw [rewrite_multiuse_clones, if_neg hn]
      dsimp only
      rw [rewrite_unused lhs h₁, rewrite_unused rhs h₂]
    | Call callee args pin on_form =>
      rw [count_var_uses] at h
      rw [rewrite_multiuse_clones, if_neg hn]
      dsimp only
      rw [rewrite_reversed_unused args h, rewrite_all_unused args h,
        ite_self]
    | Apply func args =>
      rw [count_var_uses] at h
      obtain ⟨h₁, h₂⟩ := Nat.add_eq_zero_iff.1 h
      rw [rewrite_multiuse_clones, if_neg hn]
      dsimp only
      rw [rewrite_unused func h₁, rewrite_all_unused args h₂]
    | Tuple items =>
      rw [count_var_uses] at h
      rw [rewrite_multiuse_clones, if_neg hn]
      dsimp only
      rw [rewrite_all_unused items h]
    | List elem items =>
      rw [count_var_uses] at h
      rw [rewrite_multiuse_clones, if_neg hn]
      dsimp only
      rw [rewrite_all_unused items h]
    | Cons head tail =>
      rw [count_var_uses] at h
      obtain ⟨h₁, h₂⟩ := Nat.add_eq_zero_iff.1 h
      rw [rewrite_multiuse_clones, if_neg hn]
      dsimp only
      rw [rewrite_unused head h₁, rewrite_unused tail h₂]
    | ListIndexClone list index =>
      rw [count_var_uses] at h
      rw [rewrite_multiuse_clones, if_neg hn]
      dsimp only
      rw [rewrite_unused list h]
    | ListLenCheck list len exact_ =>
      rw [count_var_uses] at h
      rw [rewrite_multiuse_clones, if_neg hn]
      dsimp only
      rw [rewrite_unused list h]
    | Record fields ty =>
      rw [count_var_uses] at h
      rw [rewrite_multiuse_clones, if_neg hn]
      dsimp only
      rw [rewrite_fields_unused fields h]
    | Access record field field_ty =>
      rw [count_var_uses] at h
      rw [rewrite_multiuse_clones, if_neg hn]
      dsimp only
      rw [rewrite_unused record h]
    | Update record fields =>
      rw [count_var_uses] at h
      obtain ⟨h₁, h₂⟩ := Nat.add_eq_zero_iff.1 h
      rw [rewrite_multiuse_clones, if_neg hn]
      dsimp only
      rw [rewrite_fields_unused fields h₂, rewrite_unused record h₁]
    | Ctor home ty variant args =>
      rw [count_var_uses] at h
      rw [rewrite_multiuse_clones, if_neg hn]
      dsimp only
      rw [rewrite_all_unused args h]
    | TaskSeq effect rest =>
      rw [count_var_uses] at h
      obtain ⟨h₁, h₂⟩ := Nat.add_eq_zero_iff.1 h
      rw [rewrite_multiuse_clones, if_neg hn]
      dsimp only
      rw [rewrite_unused effect h₁, rewrite_unused rest h₂]
    | TailLoop params body =>
      rw [count_var_uses] at h
      rw [rewrite_multiuse_clones, if_neg hn]
      dsimp only
      split_ifs at h ⊢
      · rfl
      · rw [rewrite_unused body h]
    | TailRecur args =>
      rw [count_var_uses] at h
      rw [rewrite_multiuse_clones, if_neg hn]
      dsimp only
      rw [rewrite_all_unused args h]
    | _ => rw [rewrite_multiuse_clones, if_neg hn]

theorem rewrite_all_unused (es : List (Expr κ τ)) (h : count_all_uses sym es = 0) (n : ℕ) :
    rewrite_multiuse_all sym reversed n es = (es, n) := by
  cases es with
  | nil => rfl
  | cons e es =>
    rw [count_all_uses] at h
    obtain ⟨h₁, h₂⟩ := Nat.add_eq_zero_iff.1 h
    rw [rewrite_multiuse_all, rewrite_unused e h₁, rewrite_all_unused es h₂]

theorem rewrite_reversed_unused (es : List (Expr κ τ)) (h : count_all_uses sym es = 0) (n : ℕ) :
    rewrite_multiuse_reversed sym reversed n es = (es, n) := by
  cases es with
  | nil => rfl
  | cons e es =>
    rw [count_all_uses] at h
    obtain ⟨h₁, h₂⟩ := Nat.add_eq_zero_iff.1 h
    rw [rewrite_multiuse_reversed, rewrite_reversed_unused es h₂, rewrite_unused e h₁]

theorem rewrite_fields_unused (fields : List (Symbol × Expr κ τ)) (h : count_field_uses sym fields = 0)
    (n : ℕ) : rewrite_multiuse_fields sym reversed n fields = (fields, n) := by
  cases fields with
  | nil => rfl
  | cons entry fields =>
    obtain ⟨field, e⟩ := entry
    rw [count_field_uses] at h
    obtain ⟨h₁, h₂⟩ := Nat.add_eq_zero_iff.1 h
    rw [rewrite_multiuse_fields, rewrite_unused e h₁, rewrite_fields_unused fields h₂]

theorem rewrite_arms_unused (arms : List (Arm κ τ)) (h : count_arm_uses sym arms = 0) (phantom : ℕ) :
    rewrite_multiuse_arms sym reversed phantom arms = arms := by
  cases arms with
  | nil => rfl
  | cons arm arms =>
    obtain ⟨pat, body, guard⟩ := arm
    rw [count_arm_uses] at h
    rw [rewrite_multiuse_arms, rewrite_arms_unused arms (by omega)]
    cases hbinds : pat_binds_symbol pat sym with
    | true => rfl
    | false =>
      rw [hbinds, if_neg Bool.false_ne_true] at h
      rw [if_neg Bool.false_ne_true, rewrite_unused body (by omega)]

end

end

section

variable {sym : Symbol} {reversed : κ → Bool}

theorem silent_of_unseen {names : Finset Symbol} {refs : Bool}
    (hplain : (decide (sym ∉ names) || refs) = true) (hrefs : refs = false) :
    Silent (if sym ∈ names then .letter Use.captured else (1 : Ways Use)) := by
  rw [hrefs, Bool.or_false] at hplain
  exact silent_closure (of_decide_eq_true hplain)

theorem silent_continued {rest : Expr κ τ}
    (hseen : (decide (sym ∉ free_vars rest) || count_var_uses sym rest != 0) = true)
    (h : count_var_uses sym rest = 0) :
    Silent (if sym ∈ free_vars rest then .letter Use.captured else (1 : Ways Use)) := by
  rw [h] at hseen
  exact silent_closure (of_decide_eq_true (by simpa using hseen))

mutual

/-- A name whose uses are not counted is not used. -/
theorem silent_of_unused (e : Expr κ τ) (hplain : plain sym e = true) (h : count_var_uses sym e = 0) :
    Silent (paths reversed sym e) := by
  cases e with
  | Var s =>
    rw [count_var_uses] at h
    rw [paths, if_neg fun hs => one_ne_zero ((if_pos hs).symm.trans h)]
    exact silent_one
  | CloneVar s =>
    rw [count_var_uses] at h
    rw [paths, if_neg fun hs => one_ne_zero ((if_pos hs).symm.trans h)]
    exact silent_one
  | Lambda params ret body => exact silent_of_unseen hplain (refs_of_count h)
  | SharedLambda params ret body => exact silent_of_unseen hplain (refs_of_count h)
  | OnceLambda params ret body capture => exact silent_of_unseen hplain (refs_of_count h)
  | Let name value body =>
    obtain ⟨hvalue, hbody⟩ := Bool.and_eq_true_iff.1 hplain
    rw [count_var_uses] at h
    obtain ⟨h₁, h₂⟩ := Nat.add_eq_zero_iff.1 h
    refine (silent_of_unused value hvalue h₁).mul ?_
    by_cases hname : name = sym
    · rw [if_pos hname]
      exact silent_one
    · have hne : (name == sym) = false := beq_eq_false_iff_ne.2 hname
      rw [hne] at h₂ hbody
      rw [if_neg hname]
      exact silent_of_unused body hbody h₂
  | Destructure binder value body =>
    obtain ⟨hvalue, hbody⟩ := Bool.and_eq_true_iff.1 hplain
    rw [count_var_uses] at h
    obtain ⟨h₁, h₂⟩ := Nat.add_eq_zero_iff.1 h
    refine (silent_of_unused value hvalue h₁).mul ?_
    cases hbinds : pat_binds_symbol binder sym with
    | true => exact silent_one
    | false =>
      rw [hbinds] at h₂ hbody
      exact silent_of_unused body hbody h₂
  | If cond then_ else_ =>
    obtain ⟨hcond, hplain⟩ := Bool.and_eq_true_iff.1 hplain
    obtain ⟨hthen, helse⟩ := Bool.and_eq_true_iff.1 hplain
    rw [count_var_uses] at h
    exact (silent_of_unused cond hcond (by omega)).mul
      ((silent_of_unused then_ hthen (by omega)).add (silent_of_unused else_ helse (by omega)))
  | Match scrutinee arms =>
    obtain ⟨hscrutinee, harms⟩ := Bool.and_eq_true_iff.1 hplain
    rw [count_var_uses] at h
    obtain ⟨h₁, h₂⟩ := Nat.add_eq_zero_iff.1 h
    exact (silent_of_unused scrutinee hscrutinee h₁).mul (silent_arms_of_unused arms harms h₂)
  | BinOp op lhs rhs =>
    obtain ⟨hlhs, hrhs⟩ := Bool.and_eq_true_iff.1 hplain
    rw [count_var_uses] at h
    obtain ⟨h₁, h₂⟩ := Nat.add_eq_zero_iff.1 h
    have hright := silent_of_unused rhs hrhs h₂
    refine (silent_of_unused lhs hlhs h₁).mul ?_
    split_ifs
    · exact silent_one.add hright
    · exact hright
  | Call callee args pin on_form =>
    rw [paths]
    split_ifs
    · exact silent_reversed_of_unused args hplain h
    · exact silent_all_of_unused args hplain h
  | Apply func args =>
    obtain ⟨hfunc, hargs⟩ := Bool.and_eq_true_iff.1 hplain
    rw [count_var_uses] at h
    obtain ⟨h₁, h₂⟩ := Nat.add_eq_zero_iff.1 h
    exact (silent_of_unused func hfunc h₁).mul (silent_all_of_unused args hargs h₂)
  | Tuple items => exact silent_all_of_unused items hplain h
  | List elem items => exact silent_all_of_unused items hplain h
  | Cons head tail =>
    obtain ⟨hhead, htail⟩ := Bool.and_eq_true_iff.1 hplain
    rw [count_var_uses] at h
    obtain ⟨h₁, h₂⟩ := Nat.add_eq_zero_iff.1 h
    exact (silent_of_unused head hhead h₁).mul (silent_of_unused tail htail h₂)
  | ListIndexClone list index => exact silent_of_unused list hplain h
  | ListLenCheck list len exact_ => exact silent_of_unused list hplain h
  | Record fields ty => exact silent_fields_of_unused fields hplain h
  | Access record field field_ty => exact silent_of_unused record hplain h
  | Update record fields =>
    obtain ⟨hrecord, hfields⟩ := Bool.and_eq_true_iff.1 hplain
    rw [count_var_uses] at h
    obtain ⟨h₁, h₂⟩ := Nat.add_eq_zero_iff.1 h
    exact (silent_fields_of_unused fields hfields h₂).mul (silent_of_unused record hrecord h₁)
  | Ctor home ty variant args => exact silent_all_of_unused args hplain h
  | TaskSeq effect rest =>
    obtain ⟨heffect, hplain⟩ := Bool.and_eq_true_iff.1 hplain
    obtain ⟨hrest, hseen⟩ := Bool.and_eq_true_iff.1 hplain
    rw [count_var_uses] at h
    obtain ⟨h₁, h₂⟩ := Nat.add_eq_zero_iff.1 h
    exact (silent_of_unused effect heffect h₁).mul
      ((silent_continued hseen h₂).defer (silent_of_unused rest hrest h₂))
  | TailLoop params body =>
    rw [paths]
    cases hbinds : binds_param sym params with
    | true => exact silent_one
    | false =>
      rw [plain, hbinds, Bool.false_or] at hplain
      obtain ⟨hcount, hbody⟩ := Bool.and_eq_true_iff.1 hplain
      exact (silent_of_unused body hbody (beq_iff_eq.1 hcount)).kstar
  | TailRecur args => exact silent_all_of_unused args hplain h
  | _ => exact silent_one

theorem silent_all_of_unused (es : List (Expr κ τ)) (hplain : plain_all sym es = true)
    (h : count_all_uses sym es = 0) : Silent (paths_all reversed sym es) := by
  cases es with
  | nil => exact silent_one
  | cons e es =>
    obtain ⟨he, hes⟩ := Bool.and_eq_true_iff.1 hplain
    rw [count_all_uses] at h
    obtain ⟨h₁, h₂⟩ := Nat.add_eq_zero_iff.1 h
    exact (silent_of_unused e he h₁).mul (silent_all_of_unused es hes h₂)

theorem silent_reversed_of_unused (es : List (Expr κ τ)) (hplain : plain_all sym es = true)
    (h : count_all_uses sym es = 0) : Silent (paths_reversed reversed sym es) := by
  cases es with
  | nil => exact silent_one
  | cons e es =>
    obtain ⟨he, hes⟩ := Bool.and_eq_true_iff.1 hplain
    rw [count_all_uses] at h
    obtain ⟨h₁, h₂⟩ := Nat.add_eq_zero_iff.1 h
    exact (silent_reversed_of_unused es hes h₂).mul (silent_of_unused e he h₁)

theorem silent_fields_of_unused (fields : List (Symbol × Expr κ τ))
    (hplain : plain_fields sym fields = true) (h : count_field_uses sym fields = 0) :
    Silent (paths_fields reversed sym fields) := by
  cases fields with
  | nil => exact silent_one
  | cons entry fields =>
    obtain ⟨field, e⟩ := entry
    obtain ⟨he, hfields⟩ := Bool.and_eq_true_iff.1 hplain
    rw [count_field_uses] at h
    obtain ⟨h₁, h₂⟩ := Nat.add_eq_zero_iff.1 h
    exact (silent_of_unused e he h₁).mul (silent_fields_of_unused fields hfields h₂)

theorem silent_arms_of_unused (arms : List (Arm κ τ)) (hplain : plain_arms sym arms = true)
    (h : count_arm_uses sym arms = 0) : Silent (paths_arms reversed sym arms) := by
  cases arms with
  | nil => exact silent_zero
  | cons arm arms =>
    obtain ⟨pat, body, guard⟩ := arm
    obtain ⟨hfirst, harms⟩ := Bool.and_eq_true_iff.1 hplain
    rw [count_arm_uses] at h
    have hlater := silent_arms_of_unused arms harms (by omega)
    rw [paths_arms]
    cases hbinds : pat_binds_symbol pat sym with
    | true => exact silent_one.add ((silent_one.mul hlater).add hlater)
    | false =>
      rw [hbinds] at h
      rw [hbinds, Bool.false_or] at hfirst
      obtain ⟨hguard, hbody⟩ := Bool.and_eq_true_iff.1 hfirst
      obtain ⟨hcount, hguard⟩ := Bool.and_eq_true_iff.1 hguard
      have hzero : count_var_uses sym body = 0 := by
        rw [if_neg Bool.false_ne_true] at h
        omega
      have hsilent := silent_guard_of_unused guard hguard (beq_iff_eq.1 hcount)
      exact (hsilent.mul (silent_of_unused body hbody hzero)).add ((hsilent.mul hlater).add hlater)

theorem silent_guard_of_unused (guard : Option (Expr κ τ)) (hplain : plain_guard sym guard = true)
    (h : count_guard_uses sym guard = 0) : Silent (paths_guard reversed sym guard) := by
  cases guard with
  | none => exact silent_one
  | some guard => exact silent_of_unused guard hplain h

end

/-- The arms count no more than their bodies. -/
theorem count_arm_uses_eq_peak (arms : List (Arm κ τ)) (hplain : plain_arms sym arms = true) :
    count_arm_uses sym arms = match_arm_peak_uses sym arms := by
  induction arms with
  | nil => rfl
  | cons arm arms ih =>
    obtain ⟨pat, body, guard⟩ := arm
    obtain ⟨hfirst, harms⟩ := Bool.and_eq_true_iff.1 hplain
    rw [count_arm_uses, match_arm_peak_uses, ih harms]
    cases hbinds : pat_binds_symbol pat sym with
    | true => rfl
    | false =>
      rw [hbinds, Bool.false_or] at hfirst
      obtain ⟨hguard, -⟩ := Bool.and_eq_true_iff.1 hfirst
      have hcount := beq_iff_eq.1 (Bool.and_eq_true_iff.1 hguard).1
      rw [hcount, Nat.zero_add]

end

/-! ### The last use -/

section

variable (reversed : κ → Bool) (sym : Symbol)

/-- The rewrite of an expression as a pass over the uses of the name. -/
def run (e : Expr κ τ) : Pass Use := fun n =>
  (paths reversed sym (rewrite_multiuse_clones sym reversed n e).1,
    (rewrite_multiuse_clones sym reversed n e).2)

def run_all (es : List (Expr κ τ)) : Pass Use := fun n =>
  (paths_all reversed sym (rewrite_multiuse_all sym reversed n es).1,
    (rewrite_multiuse_all sym reversed n es).2)

def run_reversed (es : List (Expr κ τ)) : Pass Use := fun n =>
  (paths_reversed reversed sym (rewrite_multiuse_reversed sym reversed n es).1,
    (rewrite_multiuse_reversed sym reversed n es).2)

def run_fields (fields : List (Symbol × Expr κ τ)) : Pass Use := fun n =>
  (paths_fields reversed sym (rewrite_multiuse_fields sym reversed n fields).1,
    (rewrite_multiuse_fields sym reversed n fields).2)

end

section

variable {sym : Symbol} {reversed : κ → Bool}

/-- What is left of the expression when nothing is to come has no use, and else it is what one step of
the rewrite makes of it. -/
theorem thrifty_of_step {e : Expr κ τ} {f : Pass Use} {later : ℕ} (hplain : plain sym e = true)
    (hstep : ∀ n, n ≠ 0 → run reversed sym e n = f n)
    (hf : Thrifty (· ≠ Use.cloned) (count_var_uses sym e) later f) :
    Thrifty (· ≠ Use.cloned) (count_var_uses sym e) later (run reversed sym e) := by
  by_cases hzero : count_var_uses sym e + later = 0
  · have hsilent : Silent (paths reversed sym e) := silent_of_unused e hplain (by omega)
    have hlater : later = 0 := by omega
    rw [Thrifty, run, hzero, rewrite_zero, hlater]
    exact hsilent.spends
  · rw [Thrifty, hstep _ hzero]
    exact hf

variable (reversed) in
/-- A closure takes the name, or a clone of it while more uses are to come. -/
theorem thrifty_capture (untouched forced : Expr κ τ) {refs : Bool} {names names' : Finset Symbol}
    {later : ℕ} (huntouched : paths reversed sym untouched = if sym ∈ names then .letter Use.captured else 1)
    (hforced : paths reversed sym forced = if sym ∈ names' then .letter Use.captured else 1)
    (hplain : (decide (sym ∉ names) || refs) = true) :
    Thrifty (· ≠ Use.cloned) (if refs = true then 1 else 0) later (fun n =>
      (paths reversed sym (capture sym n refs untouched forced).1,
        (capture sym n refs untouched forced).2)) := by
  cases hrefs : refs with
  | false =>
    have hsilent := silent_of_unseen hplain hrefs
    rw [← huntouched] at hsilent
    exact thrifty_silent hsilent
  | true =>
    have hlast : LastOnly (· ≠ Use.cloned) 0 (paths reversed sym forced) := by
      rw [hforced]
      split_ifs
      · exact lastOnly_last _
      · exact silent_one.lastOnly
    have hpass : (fun n => (paths reversed sym (capture sym n true untouched forced).1,
        (capture sym n true untouched forced).2)) =
          Pass.take Use.cloned (paths reversed sym forced) := by
      funext n
      rw [capture, if_pos rfl, Pass.take]
      by_cases hn : n > 1
      · rw [if_pos hn, if_pos hn, paths, paths, if_pos rfl, if_pos rfl, mul_one]
      · rw [if_neg hn, if_neg hn]
    rw [hpass, if_pos rfl]
    exact thrifty_take (fun h => h rfl) hlast

/-- What a binding binds is evaluated first. Where the name is bound again there is nothing left. -/
theorem thrifty_scope {value body : Expr κ τ} {later : ℕ} (binds : Bool)
    (hvalue : Thrifty (· ≠ Use.cloned) (count_var_uses sym value)
      ((if binds = true then 0 else count_var_uses sym body) + later) (run reversed sym value))
    (hbody : binds = false → Thrifty (· ≠ Use.cloned) (count_var_uses sym body) later (run reversed sym body)) :
    Thrifty (· ≠ Use.cloned)
      (count_var_uses sym value + if binds = true then 0 else count_var_uses sym body) later
      ((run reversed sym value).seq (if binds = true then fun n => (1, n) else run reversed sym body)) := by
  cases binds with
  | true => exact hvalue.seq (thrifty_silent silent_one)
  | false => exact hvalue.seq (hbody rfl)

/-- A continuation takes the name, when nothing uses it later. -/
theorem thrifty_continued {rest : Expr κ τ} {later : ℕ}
    (hseen : (decide (sym ∉ free_vars rest) || count_var_uses sym rest != 0) = true)
    (hlater : (count_var_uses sym rest == 0 || later == 0) = true)
    (hrest : Thrifty (· ≠ Use.cloned) (count_var_uses sym rest) later (run reversed sym rest)) :
    Thrifty (· ≠ Use.cloned) (count_var_uses sym rest) later (fun n =>
      ((if sym ∈ free_vars (rewrite_multiuse_clones sym reversed n rest).1 then
        .letter Use.captured else (1 : Ways Use)).defer (run reversed sym rest n).1,
        (run reversed sym rest n).2)) := by
  have hsilent : count_var_uses sym rest = 0 → Silent (if sym ∈ free_vars
      (rewrite_multiuse_clones sym reversed (count_var_uses sym rest + later) rest).1 then
        .letter Use.captured else (1 : Ways Use)) := by
    intro hcount
    rw [rewrite_unused rest hcount]
    exact silent_continued hseen hcount
  refine hrest.defer ?_ hsilent
  rcases Bool.or_eq_true_iff.1 hlater with hcount | hlater
  · exact (hsilent (beq_iff_eq.1 hcount)).lastOnly
  · rw [beq_iff_eq.1 hlater]
    split_ifs
    · exact lastOnly_last _
    · exact silent_one.lastOnly

mutual

theorem thrifty_run (e : Expr κ τ) (hplain : plain sym e = true) (later : ℕ)
    (hlast : continues_last sym reversed e later = true) :
    Thrifty (· ≠ Use.cloned) (count_var_uses sym e) later (run reversed sym e) := by
  -- `thrifty_of_step` leaves one step of the rewrite, and what the parts spend in the order they run in.
  cases e with
  | Var s =>
    by_cases hs : s = sym
    · refine thrifty_of_step (f := Pass.take Use.cloned (.letter .read)) hplain (fun n hn => ?_) ?_
      · rw [run, rewrite_multiuse_clones, if_neg hn]
        rw [if_pos hs, Pass.take]
        by_cases hmore : n > 1
        · rw [if_pos hmore, if_pos hmore, paths, if_pos hs]
        · rw [if_neg hmore, if_neg hmore, paths, if_pos hs]
      · rw [count_var_uses, if_pos hs]
        exact thrifty_take (fun h => h rfl) (lastOnly_last _)
    · refine thrifty_of_step (f := fun n => (1, n)) hplain (fun n hn => ?_) ?_
      · rw [run, rewrite_multiuse_clones, if_neg hn]
        rw [if_neg hs, paths, if_neg hs]
      · rw [count_var_uses, if_neg hs]
        exact thrifty_silent silent_one
  | CloneVar s =>
    by_cases hs : s = sym
    · refine thrifty_of_step (f := Pass.take Use.cloned (.letter Use.cloned)) hplain (fun n hn => ?_) ?_
      · rw [run, rewrite_multiuse_clones, if_neg hn]
        rw [if_pos hs, Pass.take, ite_self, paths, if_pos hs]
      · rw [count_var_uses, if_pos hs]
        exact thrifty_take (fun h => h rfl) (lastOnly_last _)
    · refine thrifty_of_step (f := fun n => (1, n)) hplain (fun n hn => ?_) ?_
      · rw [run, rewrite_multiuse_clones, if_neg hn]
        rw [if_neg hs, paths, if_neg hs]
      · rw [count_var_uses, if_neg hs]
        exact thrifty_silent silent_one
  | Lambda params ret body =>
    refine thrifty_of_step hplain (fun n hn => ?_) (thrifty_capture reversed (.Lambda params ret body)
      (.Lambda params ret (force_shared_capture_clones sym body)) rfl rfl hplain)
    rw [run, rewrite_multiuse_clones, if_neg hn]
  | SharedLambda params ret body =>
    refine thrifty_of_step hplain (fun n hn => ?_) (thrifty_capture reversed (.SharedLambda params ret body)
      (.SharedLambda params ret (force_shared_capture_clones sym body)) rfl rfl hplain)
    rw [run, rewrite_multiuse_clones, if_neg hn]
  | OnceLambda params ret body capt =>
    refine thrifty_of_step hplain (fun n hn => ?_) (thrifty_capture reversed (.OnceLambda params ret body capt)
      (.OnceLambda params ret (force_shared_capture_clones sym body) capt) rfl rfl hplain)
    rw [run, rewrite_multiuse_clones, if_neg hn]
  | Let name value body =>
    obtain ⟨hvalue, hbody⟩ := Bool.and_eq_true_iff.1 hplain
    obtain ⟨hlvalue, hlbody⟩ := Bool.and_eq_true_iff.1 hlast
    refine thrifty_of_step hplain (fun n hn => ?_) (thrifty_scope (name == sym)
      (thrifty_run value hvalue _ hlvalue) fun hname =>
        thrifty_run body (not_shadowed hname hbody) later (not_shadowed hname hlbody))
    rw [run, rewrite_multiuse_clones, if_neg hn]
    dsimp only
    cases hname : name == sym with
    | true =>
      rw [paths, if_pos (beq_iff_eq.1 hname)]
      rfl
    | false =>
      rw [paths, if_neg (beq_eq_false_iff_ne.1 hname)]
      rfl
  | Destructure binder value body =>
    obtain ⟨hvalue, hbody⟩ := Bool.and_eq_true_iff.1 hplain
    obtain ⟨hlvalue, hlbody⟩ := Bool.and_eq_true_iff.1 hlast
    refine thrifty_of_step hplain (fun n hn => ?_) (thrifty_scope (pat_binds_symbol binder sym)
      (thrifty_run value hvalue _ hlvalue) fun hbinds =>
        thrifty_run body (not_shadowed hbinds hbody) later (not_shadowed hbinds hlbody))
    rw [run, rewrite_multiuse_clones, if_neg hn]
    dsimp only
    cases hbinds : pat_binds_symbol binder sym with
    | true =>
      rw [paths, hbinds]
      rfl
    | false =>
      rw [paths, hbinds]
      rfl
  | If cond then_ else_ =>
    obtain ⟨hcond, hplain'⟩ := Bool.and_eq_true_iff.1 hplain
    obtain ⟨hthen, helse⟩ := Bool.and_eq_true_iff.1 hplain'
    obtain ⟨hlcond, hlast⟩ := Bool.and_eq_true_iff.1 hlast
    obtain ⟨hlthen, hlelse⟩ := Bool.and_eq_true_iff.1 hlast
    have hright := thrifty_run then_ hthen _ hlthen
    have hwrong := thrifty_run else_ helse _ hlelse
    refine thrifty_of_step (f := (run reversed sym cond).seq (Pass.branch
      (max (count_var_uses sym then_) (count_var_uses sym else_)) fun phantom =>
        (run reversed sym then_ (count_var_uses sym then_ + phantom)).1 +
          (run reversed sym else_ (count_var_uses sym else_ + phantom)).1)) hplain (fun n hn => ?_) ?_
    · rw [run, rewrite_multiuse_clones, if_neg hn]
      rfl
    · refine (thrifty_run cond hcond _ hlcond).seq (thrifty_branch ?_ fun hpeak => ?_)
      · exact hright.last.add hwrong.last
      · exact (hright.silent (by omega)).add (hwrong.silent (by omega))
  | Match scrutinee arms =>
    obtain ⟨hscrutinee, harms⟩ := Bool.and_eq_true_iff.1 hplain
    obtain ⟨hlscrutinee, hlarms⟩ := Bool.and_eq_true_iff.1 hlast
    obtain ⟨hlast, hsilent⟩ := last_arms arms harms _ hlarms
    refine thrifty_of_step (f := (run reversed sym scrutinee).seq (Pass.branch
      (match_arm_peak_uses sym arms) fun phantom =>
        paths_arms reversed sym (rewrite_multiuse_arms sym reversed phantom arms))) hplain
      (fun n hn => ?_) ?_
    · rw [run, rewrite_multiuse_clones, if_neg hn]
      rfl
    · rw [count_var_uses, count_arm_uses_eq_peak arms harms]
      exact (thrifty_run scrutinee hscrutinee _ hlscrutinee).seq (thrifty_branch hlast hsilent)
  | BinOp op lhs rhs =>
    obtain ⟨hlhs, hrhs⟩ := Bool.and_eq_true_iff.1 hplain
    obtain ⟨hllhs, hlrhs⟩ := Bool.and_eq_true_iff.1 hlast
    have hleft := thrifty_run lhs hlhs _ hllhs
    have hright := thrifty_run rhs hrhs later hlrhs
    -- The right side of a short circuit may not run.
    by_cases hop : op = .And ∨ op = .Or
    · refine thrifty_of_step (f := (run reversed sym lhs).seq fun n =>
        (1 + (run reversed sym rhs n).1, (run reversed sym rhs n).2)) hplain (fun n hn => ?_) ?_
      · rw [run, rewrite_multiuse_clones, if_neg hn]
        dsimp only
        rw [paths, if_pos hop]
        rfl
      · exact hleft.seq hright.skip
    · refine thrifty_of_step (f := (run reversed sym lhs).seq (run reversed sym rhs)) hplain
        (fun n hn => ?_) ?_
      · rw [run, rewrite_multiuse_clones, if_neg hn]
        dsimp only
        rw [paths, if_neg hop]
        rfl
      · exact hleft.seq hright
  | Call callee args pin on_form =>
    rw [continues_last] at hlast
    cases hcallee : callee.evaluates_args_reversed reversed with
    | true =>
      rw [hcallee, if_pos rfl] at hlast
      refine thrifty_of_step (f := run_reversed reversed sym args) hplain (fun n hn => ?_)
        (thrifty_reversed args hplain later hlast)
      rw [run, rewrite_multiuse_clones, if_neg hn]
      dsimp only
      rw [hcallee, paths, hcallee]
      rfl
    | false =>
      rw [hcallee, if_neg Bool.false_ne_true] at hlast
      refine thrifty_of_step (f := run_all reversed sym args) hplain (fun n hn => ?_)
        (thrifty_all args hplain later hlast)
      rw [run, rewrite_multiuse_clones, if_neg hn]
      dsimp only
      rw [hcallee, paths, hcallee]
      rfl
  | Apply func args =>
    obtain ⟨hfunc, hargs⟩ := Bool.and_eq_true_iff.1 hplain
    obtain ⟨hlfunc, hlargs⟩ := Bool.and_eq_true_iff.1 hlast
    refine thrifty_of_step hplain (fun n hn => ?_)
      ((thrifty_run func hfunc _ hlfunc).seq (thrifty_all args hargs later hlargs))
    rw [run, rewrite_multiuse_clones, if_neg hn]
    rfl
  | Tuple items =>
    refine thrifty_of_step hplain (fun n hn => ?_) (thrifty_all items hplain later hlast)
    rw [run, rewrite_multiuse_clones, if_neg hn]
    rfl
  | List elem items =>
    refine thrifty_of_step hplain (fun n hn => ?_) (thrifty_all items hplain later hlast)
    rw [run, rewrite_multiuse_clones, if_neg hn]
    rfl
  | Cons head tail =>
    obtain ⟨hhead, htail⟩ := Bool.and_eq_true_iff.1 hplain
    obtain ⟨hlhead, hltail⟩ := Bool.and_eq_true_iff.1 hlast
    refine thrifty_of_step hplain (fun n hn => ?_)
      ((thrifty_run head hhead _ hlhead).seq (thrifty_run tail htail later hltail))
    rw [run, rewrite_multiuse_clones, if_neg hn]
    rfl
  | ListIndexClone list index =>
    refine thrifty_of_step hplain (fun n hn => ?_) (thrifty_run list hplain later hlast)
    rw [run, rewrite_multiuse_clones, if_neg hn]
    rfl
  | ListLenCheck list len exact_ =>
    refine thrifty_of_step hplain (fun n hn => ?_) (thrifty_run list hplain later hlast)
    rw [run, rewrite_multiuse_clones, if_neg hn]
    rfl
  | Record fields ty =>
    refine thrifty_of_step hplain (fun n hn => ?_) (thrifty_fields fields hplain later hlast)
    rw [run, rewrite_multiuse_clones, if_neg hn]
    rfl
  | Access record field field_ty =>
    refine thrifty_of_step hplain (fun n hn => ?_) (thrifty_run record hplain later hlast)
    rw [run, rewrite_multiuse_clones, if_neg hn]
    rfl
  | Update record fields =>
    obtain ⟨hrecord, hfields⟩ := Bool.and_eq_true_iff.1 hplain
    obtain ⟨hlfields, hlrecord⟩ := Bool.and_eq_true_iff.1 hlast
    -- The fields run before the record, which is counted first.
    refine thrifty_of_step (f := (run_fields reversed sym fields).seq (run reversed sym record)) hplain
      (fun n hn => ?_) ?_
    · rw [run, rewrite_multiuse_clones, if_neg hn]
      rfl
    · rw [count_var_uses, Nat.add_comm]
      exact (thrifty_fields fields hfields _ hlfields).seq (thrifty_run record hrecord later hlrecord)
  | Ctor home ty variant args =>
    refine thrifty_of_step hplain (fun n hn => ?_) (thrifty_all args hplain later hlast)
    rw [run, rewrite_multiuse_clones, if_neg hn]
    rfl
  | TaskSeq effect rest =>
    obtain ⟨heffect, hplain'⟩ := Bool.and_eq_true_iff.1 hplain
    obtain ⟨hrest, hseen⟩ := Bool.and_eq_true_iff.1 hplain'
    obtain ⟨hleffect, hlast⟩ := Bool.and_eq_true_iff.1 hlast
    obtain ⟨hlrest, hlater⟩ := Bool.and_eq_true_iff.1 hlast
    refine thrifty_of_step hplain (fun n hn => ?_) ((thrifty_run effect heffect _ hleffect).seq
      (thrifty_continued hseen hlater (thrifty_run rest hrest later hlrest)))
    rw [run, rewrite_multiuse_clones, if_neg hn]
    rfl
  | TailLoop params body =>
    cases hbinds : binds_param sym params with
    | true =>
      refine thrifty_of_step (f := fun n => (1, n)) hplain (fun n hn => ?_) ?_
      · rw [run, rewrite_multiuse_clones, if_neg hn]
        dsimp only
        rw [hbinds, paths, hbinds]
        rfl
      · rw [count_var_uses, hbinds]
        exact thrifty_silent silent_one
    | false =>
      -- The body of a loop runs again: it may not use the name.
      obtain ⟨hcount, hbody⟩ := Bool.and_eq_true_iff.1 (not_shadowed hbinds hplain)
      have hloop := thrifty_run body hbody later (not_shadowed hbinds hlast)
      rw [beq_iff_eq.1 hcount] at hloop
      refine thrifty_of_step (f := fun n =>
        (KStar.kstar (run reversed sym body n).1, (run reversed sym body n).2)) hplain (fun n hn => ?_) ?_
      · rw [run, rewrite_multiuse_clones, if_neg hn]
        dsimp only
        rw [hbinds, paths, hbinds]
        rfl
      · rw [count_var_uses, hbinds, if_neg Bool.false_ne_true, beq_iff_eq.1 hcount]
        exact hloop.kstar
  | TailRecur args =>
    refine thrifty_of_step hplain (fun n hn => ?_) (thrifty_all args hplain later hlast)
    rw [run, rewrite_multiuse_clones, if_neg hn]
    rfl
  | _ =>
    refine thrifty_of_step (f := fun n => (1, n)) hplain (fun n hn => ?_) (thrifty_silent silent_one)
    rw [run, rewrite_multiuse_clones, if_neg hn]
    rfl

theorem thrifty_all (es : List (Expr κ τ)) (hplain : plain_all sym es = true) (later : ℕ)
    (hlast : all_continue_last sym reversed es later = true) :
    Thrifty (· ≠ Use.cloned) (count_all_uses sym es) later (run_all reversed sym es) := by
  cases es with
  | nil => exact thrifty_silent silent_one
  | cons e es =>
    obtain ⟨he, hes⟩ := Bool.and_eq_true_iff.1 hplain
    obtain ⟨hle, hles⟩ := Bool.and_eq_true_iff.1 hlast
    exact (thrifty_run e he _ hle).seq (thrifty_all es hes later hles)

theorem thrifty_reversed (es : List (Expr κ τ)) (hplain : plain_all sym es = true) (later : ℕ)
    (hlast : reversed_continue_last sym reversed es later = true) :
    Thrifty (· ≠ Use.cloned) (count_all_uses sym es) later (run_reversed reversed sym es) := by
  cases es with
  | nil => exact thrifty_silent silent_one
  | cons e es =>
    obtain ⟨he, hes⟩ := Bool.and_eq_true_iff.1 hplain
    obtain ⟨hles, hle⟩ := Bool.and_eq_true_iff.1 hlast
    rw [count_all_uses, Nat.add_comm]
    exact (thrifty_reversed es hes _ hles).seq (thrifty_run e he later hle)

theorem thrifty_fields (fields : List (Symbol × Expr κ τ)) (hplain : plain_fields sym fields = true)
    (later : ℕ) (hlast : fields_continue_last sym reversed fields later = true) :
    Thrifty (· ≠ Use.cloned) (count_field_uses sym fields) later (run_fields reversed sym fields) := by
  cases fields with
  | nil => exact thrifty_silent silent_one
  | cons entry fields =>
    obtain ⟨field, e⟩ := entry
    obtain ⟨he, hfields⟩ := Bool.and_eq_true_iff.1 hplain
    obtain ⟨hle, hlfields⟩ := Bool.and_eq_true_iff.1 hlast
    exact (thrifty_run e he _ hle).seq (thrifty_fields fields hfields later hlfields)

/-- Each arm counts its own uses, and one more if any come after the match. -/
theorem last_arms (arms : List (Arm κ τ)) (hplain : plain_arms sym arms = true) (phantom : ℕ)
    (hlast : arms_continue_last sym reversed arms phantom = true) :
    LastOnly (· ≠ Use.cloned) phantom
        (paths_arms reversed sym (rewrite_multiuse_arms sym reversed phantom arms)) ∧
      (match_arm_peak_uses sym arms = 0 →
        Silent (paths_arms reversed sym (rewrite_multiuse_arms sym reversed phantom arms))) := by
  cases arms with
  | nil => exact ⟨silent_zero.lastOnly, fun _ => silent_zero⟩
  | cons arm arms =>
    obtain ⟨pat, body, guard⟩ := arm
    obtain ⟨hfirst, harms⟩ := Bool.and_eq_true_iff.1 hplain
    obtain ⟨hlbody, hlarms⟩ := Bool.and_eq_true_iff.1 hlast
    obtain ⟨hlast, hsilent⟩ := last_arms arms harms phantom hlarms
    rw [rewrite_multiuse_arms, paths_arms, match_arm_peak_uses]
    cases hbinds : pat_binds_symbol pat sym with
    | true =>
      rw [if_pos rfl, if_pos rfl, if_pos rfl, one_mul]
      exact ⟨silent_one.lastOnly.add (hlast.add hlast), fun hpeak =>
        silent_one.add ((hsilent (by omega)).add (hsilent (by omega)))⟩
    | false =>
      obtain ⟨hguard, hbody⟩ := Bool.and_eq_true_iff.1 (not_shadowed hbinds hfirst)
      obtain ⟨hcount, hguard⟩ := Bool.and_eq_true_iff.1 hguard
      have hquiet : Silent (paths_guard reversed sym guard) :=
        silent_guard_of_unused guard hguard (beq_iff_eq.1 hcount)
      have hown := thrifty_run body hbody phantom (not_shadowed hbinds hlbody)
      rw [if_neg Bool.false_ne_true, if_neg Bool.false_ne_true, if_neg Bool.false_ne_true,
        if_neg Bool.false_ne_true]
      refine ⟨?_, fun hpeak => ?_⟩
      -- The guard comes first and uses nothing, so that any bound on what follows it will do.
      · refine .add (.mul (n := 1) hquiet.lastOnly hown.last fun h => absurd h one_ne_zero) (.add ?_ hlast)
        exact .mul (n := 1) hquiet.lastOnly hlast fun h => absurd h one_ne_zero
      · have hlater := hsilent (by omega)
        exact (hquiet.mul (hown.silent (by omega))).add ((hquiet.mul hlater).add hlater)

end

end

/-- With as many uses to come as the expression counts and `later` ones after it, the rewrite leaves
`later`. Each use on a way through the expression is a clone, but for the last one if none come after, and
so it is on each way through the continuation of a task. -/
theorem rewrite_multiuse_clones_owned (reversed : κ → Bool) (sym : Symbol) (e : Expr κ τ)
    (hplain : plain sym e = true) (later : ℕ) (hlast : continues_last sym reversed e later = true) :
    (rewrite_multiuse_clones sym reversed (count_var_uses sym e + later) e).2 = later ∧
      (∀ w ∈ (paths reversed sym
          (rewrite_multiuse_clones sym reversed (count_var_uses sym e + later) e).1).now,
        ∀ u ∈ if later = 0 then w.dropLast else w, u = .cloned) ∧
      ∀ continuation ∈ (paths reversed sym
          (rewrite_multiuse_clones sym reversed (count_var_uses sym e + later) e).1).deferred,
        ∀ w ∈ continuation, ∀ u ∈ w.dropLast, u = .cloned := by
  have hrun := @thrifty_run κ τ sym reversed e hplain later hlast
  exact ⟨hrun.left_eq, fun w hw u hu => not_not.1 (hrun.last.1 w hw u hu),
    fun continuation hin w hw u hu => not_not.1 (hrun.last.2 continuation hin w hw u hu)⟩

/-- A name that a closure takes between two reads, and then the continuation of a task that reads it
twice. -/
def readTwice : Expr Empty Unit :=
  .Tuple [.If (.Var 1) (.Var 0) .Unit, .Lambda [(2, ())] () (.Var 0),
    .TaskSeq (.Var 0) (.Tuple [.Var 0, .Var 0])]

/-- A use after the continuation comes too late. -/
example : continues_last 0 (fun k : Empty => k.elim)
    (.Tuple [.TaskSeq (.Var 1) (.Var 0), .Var 0] : Expr Empty Unit) 0 = false := by
  decide

theorem rewrite_multiuse_clones_owned_readTwice :
    (rewrite_multiuse_clones 0 (fun k : Empty => k.elim) 5 readTwice).2 = 0 ∧
      (∀ w ∈ (paths (fun k : Empty => k.elim) 0
          (rewrite_multiuse_clones 0 (fun k : Empty => k.elim) 5 readTwice).1).now,
        ∀ u ∈ w.dropLast, u = .cloned) ∧
      ∀ continuation ∈ (paths (fun k : Empty => k.elim) 0
          (rewrite_multiuse_clones 0 (fun k : Empty => k.elim) 5 readTwice).1).deferred,
        ∀ w ∈ continuation, ∀ u ∈ w.dropLast, u = .cloned :=
  rewrite_multiuse_clones_owned (fun k : Empty => k.elim) 0 readTwice (by decide) 0 (by decide)

end IpeLang.Ir
