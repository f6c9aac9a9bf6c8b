import IpeLang.Ir.MoveOwnership

/-!
# What a clone means

A clone is the value that it was made of, and a name that is bound to its own clone stands for what it
stood for. So the rewrites that make clones leave the meaning alone.

* `eval_forced`: clones for closures;
* `eval_rewrite_multiuse_clones`: clones for all uses but the last.
-/

namespace IpeLang.Ir

variable {κ τ V : Type} {m : Type → Type} [Monad m] {M : Meaning κ V m}
  {calls : FuncId → List V → m V} {sym : Symbol} {env : Env V}

/-! ### Scopes that know the name -/

theorem extend_self {v : V} (h : env sym = some v) : env.extend [(sym, v)] = env := by
  funext s
  rw [Env.extend]
  by_cases hs : s = sym
  · rw [hs, h]
    simp
  · have hne : (s == sym) = false := by simpa using hs
    simp [List.lookup_cons, hne]

theorem isSome_extend (h : (env sym).isSome = true) (bindings : List (Symbol × V)) :
    (env.extend bindings sym).isSome = true := by
  rw [Env.extend]
  cases hlookup : bindings.lookup sym with
  | none => exact h
  | some v => rfl

theorem isSome_enter {params : List (Symbol × τ)} {args : List V} {inner : Env V}
    (h : (env sym).isSome = true) (henter : enter params env args = some inner) :
    (inner sym).isSome = true := by
  rw [enter] at henter
  split_ifs at henter
  rw [← Option.some.inj henter]
  exact isSome_extend h _

theorem closure_scope {params : List (Symbol × τ)} {body body' : Env V → m V}
    (h : (env sym).isSome = true)
    (hbody : ∀ inner : Env V, (inner sym).isSome = true → body inner = body' inner) :
    closure M params env body = closure M params env body' := by
  rw [closure, closure]
  congr 1
  funext args
  cases henter : enter params env args with
  | none => rfl
  | some inner => exact hbody inner (isSome_enter h henter)

/-- A name that is bound to its own clone. -/
theorem eval_under_clone [LawfulMonad m] (h : (env sym).isSome = true) (e : Expr κ τ) :
    eval M calls (.Let sym (.CloneVar sym) e) env = eval M calls e env := by
  obtain ⟨v, hv⟩ := Option.isSome_iff_exists.1 h
  rw [eval, eval, look_up, hv]
  show (pure v >>= fun v => eval M calls e (env.extend [(sym, v)])) = _
  rw [pure_bind, extend_self hv]

theorem eval_wrapped [LawfulMonad m] (h : (env sym).isSome = true) {shadowed : Bool}
    {body rebuilt : Expr κ τ} :
    eval M calls (wrap_shared_lambda_if_needed sym shadowed body rebuilt) env =
      eval M calls rebuilt env := by
  rw [wrap_shared_lambda_if_needed]
  split_ifs
  · rfl
  · exact eval_under_clone h rebuilt

theorem eval_task_wrapped [LawfulMonad m] (h : (env sym).isSome = true) {effect rest : Expr κ τ} :
    eval M calls (wrap_task_seq_rest_capture sym effect rest) env =
      eval M calls (.TaskSeq effect rest) env := by
  rw [wrap_task_seq_rest_capture]
  split_ifs
  · exact eval_under_clone h _
  · rfl

/-- A part that was left alone or rewritten. -/
theorem eval_either {c : Prop} [Decidable c] {e e' : Expr κ τ}
    (h : eval M calls e' env = eval M calls e env) :
    eval M calls (if c then e else e') env = eval M calls e env := by
  split_ifs
  · rfl
  · exact h

/-! ### Closures -/

mutual

theorem eval_forced [LawfulMonad m] (e : Expr κ τ) {env : Env V} (h : (env sym).isSome = true) :
    eval M calls (force_shared_capture_clones sym e) env = eval M calls e env := by
  cases e with
  | Lambda params ret body =>
    rw [force_shared_capture_clones, eval_wrapped h, eval, eval]
    exact congrArg pure (closure_scope h fun inner hinner => eval_either (eval_forced body hinner))
  | SharedLambda params ret body =>
    rw [force_shared_capture_clones, eval_wrapped h, eval, eval]
    exact congrArg pure (closure_scope h fun inner hinner => eval_either (eval_forced body hinner))
  | OnceLambda params ret body capture =>
    rw [force_shared_capture_clones, eval_wrapped h, eval, eval]
    exact congrArg pure (closure_scope h fun inner hinner => eval_either (eval_forced body hinner))
  | Let name value body =>
    rw [force_shared_capture_clones, eval, eval, eval_forced value h]
    exact bind_congr fun v => eval_either (eval_forced body (isSome_extend h _))
  | Destructure binder value body =>
    rw [force_shared_capture_clones, eval, eval, eval_forced value h]
    refine bind_congr fun v => ?_
    cases match_pat M binder v with
    | none => rfl
    | some bindings => exact eval_either (eval_forced body (isSome_extend h _))
  | Match scrutinee arms =>
    rw [force_shared_capture_clones, eval, eval, eval_forced scrutinee h]
    exact bind_congr fun v => eval_forced_arms arms v h
  | BinOp op lhs rhs => rw [force_shared_capture_clones, eval, eval, eval_forced lhs h, eval_forced rhs h]
  | If cond then_ else_ =>
    rw [force_shared_capture_clones, eval, eval, eval_forced cond h, eval_forced then_ h,
      eval_forced else_ h]
  | Call callee args pin on_form =>
    cases callee with
    | Func id => rw [force_shared_capture_clones, eval, eval, eval_forced_all args h]
    | Kernel k => rw [force_shared_capture_clones, eval, eval, eval_forced_each args h]
    | Ffi ident asserted => rw [force_shared_capture_clones, eval, eval, eval_forced_all args h]
  | Apply func args =>
    rw [force_shared_capture_clones, eval, eval, eval_forced func h, eval_forced_all args h]
  | Tuple items => rw [force_shared_capture_clones, eval, eval, eval_forced_all items h]
  | List elem items => rw [force_shared_capture_clones, eval, eval, eval_forced_all items h]
  | Cons head tail =>
    rw [force_shared_capture_clones, eval, eval, eval_forced head h, eval_forced tail h]
  | ListIndexClone list index => rw [force_shared_capture_clones, eval, eval, eval_forced list h]
  | ListLenCheck list len exact_ => rw [force_shared_capture_clones, eval, eval, eval_forced list h]
  | Record fields ty => rw [force_shared_capture_clones, eval, eval, eval_forced_fields fields h]
  | Access record field field_ty => rw [force_shared_capture_clones, eval, eval, eval_forced record h]
  | Update record fields =>
    rw [force_shared_capture_clones, eval, eval, eval_forced record h, eval_forced_fields fields h]
  | Ctor home ty variant args => rw [force_shared_capture_clones, eval, eval, eval_forced_all args h]
  | TaskSeq effect rest =>
    rw [force_shared_capture_clones, eval_task_wrapped h, eval, eval, eval_forced effect h,
      eval_forced rest h]
  | TailLoop params body => rw [force_shared_capture_clones, eval, eval]
  | TailRecur args => rw [force_shared_capture_clones, eval, eval]
  | _ => rfl

theorem eval_forced_all [LawfulMonad m] (es : List (Expr κ τ)) {env : Env V}
    (h : (env sym).isSome = true) :
    eval_all M calls (force_shared_capture_clones_all sym es) env = eval_all M calls es env := by
  cases es with
  | nil => rfl
  | cons e es =>
    rw [force_shared_capture_clones_all, eval_all, eval_all, eval_forced e h, eval_forced_all es h]

theorem eval_forced_each [LawfulMonad m] (es : List (Expr κ τ)) {env : Env V}
    (h : (env sym).isSome = true) :
    eval_each M calls (force_shared_capture_clones_all sym es) env = eval_each M calls es env := by
  cases es with
  | nil => rfl
  | cons e es =>
    rw [force_shared_capture_clones_all, eval_each, eval_each, eval_forced e h, eval_forced_each es h]

theorem eval_forced_fields [LawfulMonad m] (fields : List (Symbol × Expr κ τ)) {env : Env V}
    (h : (env sym).isSome = true) :
    eval_fields M calls (force_shared_capture_clones_fields sym fields) env =
      eval_fields M calls fields env := by
  cases fields with
  | nil => rfl
  | cons entry fields =>
    obtain ⟨field, e⟩ := entry
    rw [force_shared_capture_clones_fields, eval_fields, eval_fields, eval_forced e h,
      eval_forced_fields fields h]

theorem eval_forced_arms [LawfulMonad m] (arms : List (Arm κ τ)) (v : V) {env : Env V}
    (h : (env sym).isSome = true) :
    eval_arms M calls (force_shared_capture_clones_arms sym arms) v env =
      eval_arms M calls arms v env := by
  cases arms with
  | nil => rfl
  | cons arm arms =>
    obtain ⟨pat, body, guard⟩ := arm
    have hlater := eval_forced_arms arms v h
    rw [force_shared_capture_clones_arms, eval_arms, eval_arms]
    cases match_pat M pat v with
    | none => exact hlater
    | some bindings =>
      dsimp only
      rw [eval_either (eval_forced body (isSome_extend h bindings)), hlater]

end

/-! ### Uses -/

variable {reversed : κ → Bool}

theorem eval_captured [LawfulMonad m] (h : (env sym).isSome = true) {n : ℕ} {refs : Bool}
    {untouched forced : Expr κ τ}
    (hforced : eval M calls forced env = eval M calls untouched env) :
    eval M calls (capture sym n refs untouched forced).1 env = eval M calls untouched env := by
  rw [capture]
  split_ifs
  · rw [eval_under_clone h, hforced]
  · exact hforced
  · rfl

mutual

theorem eval_rewritten [LawfulMonad m] (e : Expr κ τ) (n : ℕ) {env : Env V} (h : (env sym).isSome = true) :
    eval M calls (rewrite_multiuse_clones sym reversed n e).1 env = eval M calls e env := by
  by_cases hn : n = 0
  · rw [hn, rewrite_zero]
  · cases e with
    | Var s =>
      rw [rewrite_multiuse_clones, if_neg hn]
      split_ifs
      · rw [eval, eval]
      · rfl
      · rfl
    | CloneVar s =>
      rw [rewrite_multiuse_clones, if_neg hn]
      split_ifs
      · rfl
      · rfl
    | Lambda params ret body =>
      rw [rewrite_multiuse_clones, if_neg hn]
      refine eval_captured h ?_
      rw [eval, eval]
      exact congrArg pure (closure_scope h fun inner hinner => eval_forced body hinner)
    | SharedLambda params ret body =>
      rw [rewrite_multiuse_clones, if_neg hn]
      refine eval_captured h ?_
      rw [eval, eval]
      exact congrArg pure (closure_scope h fun inner hinner => eval_forced body hinner)
    | OnceLambda params ret body capt =>
      rw [rewrite_multiuse_clones, if_neg hn]
      refine eval_captured h ?_
      rw [eval, eval]
      exact congrArg pure (closure_scope h fun inner hinner => eval_forced body hinner)
    | Let name value body =>
      rw [rewrite_multiuse_clones, if_neg hn]
      dsimp only
      rw [eval, eval, eval_rewritten value _ h]
      refine bind_congr fun v => ?_
      split_ifs
      · rfl
      · exact eval_rewritten body _ (isSome_extend h _)
    | Destructure binder value body =>
      rw [rewrite_multiuse_clones, if_neg hn]
      dsimp only
      rw [eval, eval, eval_rewritten value _ h]
      refine bind_congr fun v => ?_
      cases match_pat M binder v with
      | none => rfl
      | some bindings =>
        dsimp only
        split_ifs
        · rfl
        · exact eval_rewritten body _ (isSome_extend h _)
    | If cond then_ else_ =>
      rw [rewrite_multiuse_clones, if_neg hn]
      dsimp only
      rw [eval, eval, eval_rewritten cond _ h, eval_rewritten then_ _ h, eval_rewritten else_ _ h]
    | Match scrutinee arms =>
      rw [rewrite_multiuse_clones, if_neg hn]
      dsimp only
      rw [eval, eval, eval_rewritten scrutinee _ h]
      exact bind_congr fun v => eval_rewritten_arms arms _ v h
    | BinOp op lhs rhs =>
      rw [rewrite_multiuse_clones, if_neg hn]
      dsimp only
      rw [eval, eval, eval_rewritten lhs _ h, eval_rewritten rhs _ h]
    | Call callee args pin on_form =>
      rw [rewrite_multiuse_clones, if_neg hn]
      dsimp only
      cases callee with
      | Func id =>
        rw [eval, eval]
        split_ifs
        · rw [eval_rewritten_reversed args _ h]
        · rw [eval_rewritten_all args _ h]
      | Kernel k =>
        rw [eval, eval]
        split_ifs
        · rw [each_rewritten_reversed args _ h]
        · rw [each_rewritten_all args _ h]
      | Ffi ident asserted =>
        rw [eval, eval]
        split_ifs
        · rw [eval_rewritten_reversed args _ h]
        · rw [eval_rewritten_all args _ h]
    | Apply func args =>
      rw [rewrite_multiuse_clones, if_neg hn]
      dsimp only
      rw [eval, eval, eval_rewritten func _ h, eval_rewritten_all args _ h]
    | Tuple items =>
      rw [rewrite_multiuse_clones, if_neg hn]
      dsimp only
      rw [eval, eval, eval_rewritten_all items _ h]
    | List elem items =>
      rw [rewrite_multiuse_clones, if_neg hn]
      dsimp only
      rw [eval, eval, eval_rewritten_all items _ h]
    | Cons head tail =>
      rw [rewrite_multiuse_clones, if_neg hn]
      dsimp only
      rw [eval, eval, eval_rewritten head _ h, eval_rewritten tail _ h]
    | ListIndexClone list index =>
      rw [rewrite_multiuse_clones, if_neg hn]
      dsimp only
      rw [eval, eval, eval_rewritten list _ h]
    | ListLenCheck list len exact_ =>
      rw [rewrite_multiuse_clones, if_neg hn]
      dsimp only
      rw [eval, eval, eval_rewritten list _ h]
    | Record fields ty =>
      rw [rewrite_multiuse_clones, if_neg hn]
      dsimp only
      rw [eval, eval, eval_rewritten_fields fields _ h]
    | Access record field field_ty =>
      rw [rewrite_multiuse_clones, if_neg hn]
      dsimp only
      rw [eval, eval, eval_rewritten record _ h]
    | Update record fields =>
      rw [rewrite_multiuse_clones, if_neg hn]
      dsimp only
      rw [eval, eval, eval_rewritten record _ h, eval_rewritten_fields fields _ h]
    | Ctor home ty variant args =>
      rw [rewrite_multiuse_clones, if_neg hn]
      dsimp only
      rw [eval, eval, eval_rewritten_all args _ h]
    | TaskSeq effect rest =>
      rw [rewrite_multiuse_clones, if_neg hn]
      dsimp only
      rw [eval, eval, eval_rewritten effect _ h, eval_rewritten rest _ h]
    | TailLoop params body =>
      rw [rewrite_multiuse_clones, if_neg hn]
      dsimp only
      rw [eval, eval]
    | TailRecur args =>
      rw [rewrite_multiuse_clones, if_neg hn]
      dsimp only
      rw [eval, eval]
    | _ => rw [rewrite_multiuse_clones, if_neg hn]

theorem eval_rewritten_all [LawfulMonad m] (es : List (Expr κ τ)) (n : ℕ) {env : Env V}
    (h : (env sym).isSome = true) :
    eval_all M calls (rewrite_multiuse_all sym reversed n es).1 env = eval_all M calls es env := by
  cases es with
  | nil => rfl
  | cons e es =>
    rw [rewrite_multiuse_all]
    dsimp only
    rw [eval_all, eval_all, eval_rewritten e _ h, eval_rewritten_all es _ h]

theorem eval_rewritten_reversed [LawfulMonad m] (es : List (Expr κ τ)) (n : ℕ) {env : Env V}
    (h : (env sym).isSome = true) :
    eval_all M calls (rewrite_multiuse_reversed sym reversed n es).1 env = eval_all M calls es env := by
  cases es with
  | nil => rfl
  | cons e es =>
    rw [rewrite_multiuse_reversed]
    dsimp only
    rw [eval_all, eval_all, eval_rewritten e _ h, eval_rewritten_reversed es _ h]

theorem each_rewritten_all [LawfulMonad m] (es : List (Expr κ τ)) (n : ℕ) {env : Env V}
    (h : (env sym).isSome = true) :
    eval_each M calls (rewrite_multiuse_all sym reversed n es).1 env = eval_each M calls es env := by
  cases es with
  | nil => rfl
  | cons e es =>
    rw [rewrite_multiuse_all]
    dsimp only
    rw [eval_each, eval_each, eval_rewritten e _ h, each_rewritten_all es _ h]

theorem each_rewritten_reversed [LawfulMonad m] (es : List (Expr κ τ)) (n : ℕ) {env : Env V}
    (h : (env sym).isSome = true) :
    eval_each M calls (rewrite_multiuse_reversed sym reversed n es).1 env =
      eval_each M calls es env := by
  cases es with
  | nil => rfl
  | cons e es =>
    rw [rewrite_multiuse_reversed]
    dsimp only
    rw [eval_each, eval_each, eval_rewritten e _ h, each_rewritten_reversed es _ h]

theorem eval_rewritten_fields [LawfulMonad m] (fields : List (Symbol × Expr κ τ)) (n : ℕ) {env : Env V}
    (h : (env sym).isSome = true) :
    eval_fields M calls (rewrite_multiuse_fields sym reversed n fields).1 env =
      eval_fields M calls fields env := by
  cases fields with
  | nil => rfl
  | cons entry fields =>
    obtain ⟨field, e⟩ := entry
    rw [rewrite_multiuse_fields]
    dsimp only
    rw [eval_fields, eval_fields, eval_rewritten e _ h, eval_rewritten_fields fields _ h]

theorem eval_rewritten_arms [LawfulMonad m] (arms : List (Arm κ τ)) (phantom : ℕ) (v : V) {env : Env V}
    (h : (env sym).isSome = true) :
    eval_arms M calls (rewrite_multiuse_arms sym reversed phantom arms) v env =
      eval_arms M calls arms v env := by
  cases arms with
  | nil => rfl
  | cons arm arms =>
    obtain ⟨pat, body, guard⟩ := arm
    have hlater := eval_rewritten_arms arms phantom v h
    rw [rewrite_multiuse_arms, eval_arms, eval_arms]
    cases match_pat M pat v with
    | none => exact hlater
    | some bindings =>
      dsimp only
      rw [eval_either (eval_rewritten body _ (isSome_extend h bindings)), hlater]

end

/-- Where the name is in scope, the rewritten expression means what it meant. -/
theorem eval_rewrite_multiuse_clones [LawfulMonad m] (M : Meaning κ V m) (calls : FuncId → List V → m V)
    (reversed : κ → Bool) (sym : Symbol) (remaining : ℕ) (e : Expr κ τ) (env : Env V)
    (h : (env sym).isSome = true) :
    eval M calls (rewrite_multiuse_clones sym reversed remaining e).1 env = eval M calls e env :=
  eval_rewritten e remaining h

/-- Three reads, of which two are clones after the rewrite. -/
theorem eval_rewrite_multiuse_clones_sum :
    eval integers (fun _ _ => none) (rewrite_multiuse_clones 0 (fun k : Empty => k.elim) 3
        (.BinOp .IntAdd (.Var 0) (.BinOp .IntAdd (.Var 0) (.Var 0)) : Expr Empty Unit)).1
        (fun _ => some 7) = some 21 := by
  rw [eval_rewrite_multiuse_clones integers (fun _ _ => none) (fun k : Empty => k.elim) 0 3
    (.BinOp .IntAdd (.Var 0) (.BinOp .IntAdd (.Var 0) (.Var 0)) : Expr Empty Unit) (fun _ => some 7) rfl]
  rfl

end IpeLang.Ir
