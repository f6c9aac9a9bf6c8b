import IpeLang.Ir.Meaning

/-!
# Tail calls

A function that calls itself in tail position only is rewritten to a loop.

* `analyze_tail_recursion`, `rewrite_tail_calls`: which functions, and how;
* `call_lower_tail_calls`: the rewritten program means what the program meant, call for call;
* `rewrite_flat`: no call of itself is left in a rewritten function.
-/

namespace IpeLang.Ir

variable {κ τ V : Type} {m : Type → Type}

inductive TailRecursion
  | NotTailRecursive
  | TailRecursive
  deriving DecidableEq, Repr

section

variable (self_id : FuncId) (arity : ℕ)

mutual

/-- The calls of the function itself: those in tail position with the right number of arguments, and
all others. -/
def count_self_calls : Expr κ τ → (in_tail : Bool) → ℕ × ℕ
  | .Call (.Func id) args _ _, in_tail =>
    (if id = self_id then if in_tail && args.length == arity then (1, 0) else (0, 1) else (0, 0)) +
      count_all args
  | .Call (.Kernel _) args _ _, _ => count_all args
  | .Call (.Ffi _ _) args _ _, _ => count_all args
  | .Ctor _ _ _ args, _ => count_all args
  | .TailRecur args, _ => count_all args
  | .FuncValue (.Func id) _, _ => if id = self_id then (0, 1) else (0, 0)
  | .FuncValue (.Kernel _) _, _ => (0, 0)
  | .FuncValue (.Ffi _ _) _, _ => (0, 0)
  | .Apply func args, _ => count_self_calls func false + count_all args
  | .If cond then_ else_, in_tail =>
    count_self_calls cond false + count_self_calls then_ in_tail + count_self_calls else_ in_tail
  | .Match scrutinee arms, in_tail => count_self_calls scrutinee false + count_arms arms in_tail
  | .Let _ value body, in_tail => count_self_calls value false + count_self_calls body in_tail
  | .Destructure _ value body, in_tail => count_self_calls value false + count_self_calls body in_tail
  | .Lambda _ _ body, _ => count_self_calls body false
  | .SharedLambda _ _ body, _ => count_self_calls body false
  | .OnceLambda _ _ body _, _ => count_self_calls body false
  | .BinOp _ lhs rhs, _ => count_self_calls lhs false + count_self_calls rhs false
  | .Cons head tail, _ => count_self_calls head false + count_self_calls tail false
  | .ListIndexClone list _, _ => count_self_calls list false
  | .ListLenCheck list _ _, _ => count_self_calls list false
  | .Tuple items, _ => count_all items
  | .List _ items, _ => count_all items
  | .Record fields _, _ => count_fields fields
  | .Update record fields, _ => count_self_calls record false + count_fields fields
  | .Access record _ _, _ => count_self_calls record false
  | .TaskSeq effect rest, _ => count_self_calls effect false + count_self_calls rest false
  | .Int _, _ => (0, 0)
  | .Bool _, _ => (0, 0)
  | .Float _, _ => (0, 0)
  | .Str _, _ => (0, 0)
  | .CustomElementRef _ _, _ => (0, 0)
  | .Char _, _ => (0, 0)
  | .Unit, _ => (0, 0)
  | .Var _, _ => (0, 0)
  | .CloneVar _, _ => (0, 0)
  | .TailLoop _ body, in_tail => count_self_calls body in_tail

def count_all : List (Expr κ τ) → ℕ × ℕ
  | [] => (0, 0)
  | e :: es => count_self_calls e false + count_all es

def count_fields : List (Symbol × Expr κ τ) → ℕ × ℕ
  | [] => (0, 0)
  | (_, e) :: fields => count_self_calls e false + count_fields fields

def count_arms : List (Arm κ τ) → (in_tail : Bool) → ℕ × ℕ
  | [], _ => (0, 0)
  | .mk _ body guard :: arms, in_tail =>
    count_guard guard + count_self_calls body in_tail + count_arms arms in_tail

def count_guard : Option (Expr κ τ) → ℕ × ℕ
  | none => (0, 0)
  | some guard => count_self_calls guard false

end

def analyze_tail_recursion (body : Expr κ τ) : TailRecursion :=
  let (tail, non_tail) := count_self_calls self_id arity body true
  if tail > 0 ∧ non_tail = 0 then .TailRecursive else .NotTailRecursive

mutual

def rewrite_in_tail : Expr κ τ → Expr κ τ
  | .Call (.Func id) args pin on_form =>
    if id = self_id ∧ args.length = arity then .TailRecur args else .Call (.Func id) args pin on_form
  | .If cond then_ else_ => .If cond (rewrite_in_tail then_) (rewrite_in_tail else_)
  | .Match scrutinee arms => (new_flat scrutinee (rewrite_arms arms)).getD (.Match scrutinee arms)
  | .Let name value body => .Let name value (rewrite_in_tail body)
  | .Destructure binder value body => .Destructure binder value (rewrite_in_tail body)
  | other => other

def rewrite_arms : List (Arm κ τ) → List (Arm κ τ)
  | [] => []
  | .mk pat body guard :: arms => .mk pat (rewrite_in_tail body) guard :: rewrite_arms arms

end

def rewrite_tail_calls (params : List (Symbol × τ)) (body : Expr κ τ) : Expr κ τ :=
  .TailLoop params (rewrite_in_tail self_id arity body)

end

/-- What the lowerer makes of a function. -/
def lower_tail_calls (f : Func κ τ) : Func κ τ :=
  if analyze_tail_recursion f.id f.params.length f.body = .TailRecursive then
    { f with body := rewrite_tail_calls f.id f.params.length f.params f.body }
  else f

/-! ### No loops before the rewrite -/

mutual

/-- An expression that is no loop and no jump, and has none in tail position. -/
def loop_free : Expr κ τ → Bool
  | .TailLoop _ _ => false
  | .TailRecur _ => false
  | .If _ then_ else_ => loop_free then_ && loop_free else_
  | .Match _ arms => loop_free_arms arms
  | .Let _ _ body => loop_free body
  | .Destructure _ _ body => loop_free body
  | _ => true

def loop_free_arms : List (Arm κ τ) → Bool
  | [] => true
  | .mk _ body _ :: arms => loop_free body && loop_free_arms arms

end

section

variable (self_id : FuncId) (params : List (Symbol × τ))

mutual

/-- The jumps that the tail calls become reach the variables of the loop: on the way to them nothing binds
a parameter again. -/
def jumps_write : Expr κ τ → (bound : Finset Symbol) → Bool
  | .Call (.Func id) args _ _, bound =>
    !decide (id = self_id ∧ args.length = params.length) || writes params bound
  | .If _ then_ else_, bound => jumps_write then_ bound && jumps_write else_ bound
  | .Match _ arms, bound => arms_write arms bound
  | .Let name _ body, bound => jumps_write body (insert name bound)
  | .Destructure binder _ body, bound => jumps_write body (pat_bound_symbols binder ∪ bound)
  | _, _ => true

def arms_write : List (Arm κ τ) → (bound : Finset Symbol) → Bool
  | [], _ => true
  | .mk pat body _ :: arms, bound =>
    jumps_write body (pat_bound_symbols pat ∪ bound) && arms_write arms bound

end

end

/-! ### The meaning of a rewritten body -/

section

variable [Monad m] [LawfulMonad m] {M : Meaning κ V m} {calls : FuncId → List V → m V}
  {params : List (Symbol × τ)}

/-- A turn that ends with a jump goes on with a call. -/
def settle (calls : FuncId → List V → m V) (self_id : FuncId) : Turn V → m V
  | .done v => pure v
  | .jump args => calls self_id args

omit [LawfulMonad m] in
theorem bind_ite {α β : Type} (b : Bool) (x y : m α) (f : α → m β) :
    (if b then x else y) >>= f = if b then x >>= f else y >>= f := by
  cases b <;> rfl

/-- A leaf of the tail means its value. -/
theorem settle_leaf {self_id : FuncId} (x : m V) :
    (do let v ← x; pure (Turn.done v)) >>= settle calls self_id = x := by
  simp [settle]

mutual

/-- The turn of a body without jumps is the body. -/
theorem eval_tail_value (self_id : FuncId) (e : Expr κ τ) (h : loop_free e = true)
    (bound : Finset Symbol) (env : Env V) :
    eval_tail M calls params e bound env >>= settle calls self_id = eval M calls e env := by
  cases e with
  | If cond then_ else_ =>
    obtain ⟨hthen, helse⟩ := Bool.and_eq_true_iff.1 h
    simp only [eval_tail, eval, bind_assoc, bind_ite, eval_tail_value self_id then_ hthen,
      eval_tail_value self_id else_ helse]
  | Let name value body =>
    simp only [eval_tail, eval, bind_assoc, eval_tail_value self_id body h]
  | Destructure binder value body =>
    simp only [eval_tail, eval, bind_assoc]
    refine bind_congr fun v => ?_
    cases match_pat M binder v with
    | none => exact M.stuck_bind _
    | some bindings => exact eval_tail_value self_id body h _ _
  | Match scrutinee arms =>
    simp only [eval_tail, eval, bind_assoc, eval_tail_arms_value self_id arms h]
  | TailLoop params body => cases h
  | TailRecur args => cases h
  | _ => exact settle_leaf _

theorem eval_tail_arms_value (self_id : FuncId) (arms : List (Arm κ τ))
    (h : loop_free_arms arms = true) (v : V) (bound : Finset Symbol) (env : Env V) :
    eval_tail_arms M calls params arms v bound env >>= settle calls self_id =
      eval_arms M calls arms v env := by
  cases arms with
  | nil => exact M.stuck_bind _
  | cons arm arms =>
    obtain ⟨pat, body, guard⟩ := arm
    obtain ⟨hbody, harms⟩ := Bool.and_eq_true_iff.1 h
    rw [eval_tail_arms, eval_arms]
    cases match_pat M pat v with
    | none => exact eval_tail_arms_value self_id arms harms v bound env
    | some bindings =>
      simp only [bind_assoc, bind_ite, eval_tail_value self_id body hbody,
        eval_tail_arms_value self_id arms harms]

end

mutual

/-- The turn of a rewritten body, with a jump as the call that it stands for, is the body. -/
theorem eval_tail_rewrite (self_id : FuncId) (e : Expr κ τ) (h : loop_free e = true)
    (bound : Finset Symbol) (hwrite : jumps_write self_id params e bound = true) (env : Env V) :
    eval_tail M calls params (rewrite_in_tail self_id params.length e) bound env >>=
      settle calls self_id = eval M calls e env := by
  cases e with
  | Call callee args pin on_form =>
    cases callee with
    | Func id =>
      rw [rewrite_in_tail]
      by_cases hself : id = self_id ∧ args.length = params.length
      · have hwrites : writes params bound = true := by simpa [jumps_write, hself] using hwrite
        rw [if_pos hself, eval_tail, eval, hself.1]
        simp [settle, hwrites]
      · rw [if_neg hself]
        exact eval_tail_value self_id _ h bound env
    | Kernel k => exact settle_leaf _
    | Ffi ident asserted => exact settle_leaf _
  | If cond then_ else_ =>
    obtain ⟨hthen, helse⟩ := Bool.and_eq_true_iff.1 h
    obtain ⟨hwthen, hwelse⟩ := Bool.and_eq_true_iff.1 hwrite
    simp only [rewrite_in_tail, eval_tail, eval, bind_assoc, bind_ite,
      eval_tail_rewrite self_id then_ hthen bound hwthen,
      eval_tail_rewrite self_id else_ helse bound hwelse]
  | Let name value body =>
    simp only [rewrite_in_tail, eval_tail, eval, bind_assoc,
      eval_tail_rewrite self_id body h (insert name bound) hwrite]
  | Destructure binder value body =>
    simp only [rewrite_in_tail, eval_tail, eval, bind_assoc]
    refine bind_congr fun v => ?_
    cases match_pat M binder v with
    | none => exact M.stuck_bind _
    | some bindings => exact eval_tail_rewrite self_id body h _ hwrite _
  | Match scrutinee arms =>
    rw [rewrite_in_tail, new_flat]
    split
    · show eval_tail M calls params (.Match scrutinee (rewrite_arms self_id params.length arms)) bound
        env >>= _ = _
      simp only [eval_tail, eval, bind_assoc, eval_tail_arms_rewrite self_id arms h bound hwrite]
    · exact eval_tail_value self_id _ h bound env
  | TailLoop params body => cases h
  | TailRecur args => cases h
  | _ => exact settle_leaf _

theorem eval_tail_arms_rewrite (self_id : FuncId) (arms : List (Arm κ τ))
    (h : loop_free_arms arms = true) (bound : Finset Symbol)
    (hwrite : arms_write self_id params arms bound = true) (v : V) (env : Env V) :
    eval_tail_arms M calls params (rewrite_arms self_id params.length arms) v bound env >>=
      settle calls self_id = eval_arms M calls arms v env := by
  cases arms with
  | nil => exact M.stuck_bind _
  | cons arm arms =>
    obtain ⟨pat, body, guard⟩ := arm
    obtain ⟨hbody, harms⟩ := Bool.and_eq_true_iff.1 h
    obtain ⟨hwbody, hwarms⟩ := Bool.and_eq_true_iff.1 hwrite
    rw [rewrite_arms, eval_tail_arms, eval_arms]
    cases match_pat M pat v with
    | none => exact eval_tail_arms_rewrite self_id arms harms bound hwarms v env
    | some bindings =>
      simp only [bind_assoc, bind_ite, eval_tail_rewrite self_id body hbody _ hwbody,
        eval_tail_arms_rewrite self_id arms harms bound hwarms]

end

end

/-! ### The meaning of a rewritten program -/

section

variable [Monad m] [LawfulMonad m] {M : Meaning κ V m} {funcs : List (Func κ τ)}

theorem lower_tail_calls_id (f : Func κ τ) : (lower_tail_calls f).id = f.id := by
  rw [lower_tail_calls]
  split <;> rfl

theorem find_func_lower (funcs : List (Func κ τ)) (id : FuncId) :
    find_func (funcs.map lower_tail_calls) id = (find_func funcs id).map lower_tail_calls := by
  rw [find_func, find_func, List.find?_map]
  congr 2
  funext f
  simp [lower_tail_calls_id]

/-- The names that a call binds hide the arguments of the call before. -/
theorem enter_enter {params : List (Symbol × τ)} {env scope : Env V} {args₀ args : List V}
    (h : enter params env args₀ = some scope) : enter params scope args = enter params env args := by
  rw [enter] at h
  split_ifs at h with hlen₀
  obtain rfl := Option.some.inj h
  rw [enter, enter]
  split_ifs with hlen
  · congr 1
    funext s
    rw [Env.extend, Env.extend, Env.extend]
    cases hs : ((params.map Prod.fst).zip args).lookup s with
    | some v => rfl
    | none =>
      have hs₀ : ((params.map Prod.fst).zip args₀).lookup s = none := by
        rw [List.lookup_eq_none_iff] at hs ⊢
        intro p hp
        have hmem : p.1 ∈ params.map Prod.fst := (List.of_mem_zip hp).1
        obtain ⟨i, hi, hget⟩ := List.getElem_of_mem hmem
        have hi' : i < args.length := by simpa [hlen] using hi
        have hin : (p.1, args[i]) ∈ (params.map Prod.fst).zip args := by
          rw [← hget]
          exact List.mem_iff_getElem.2 ⟨i, by simp [hlen] at hi ⊢; omega, by simp⟩
        exact hs (p.1, args[i]) hin
      rw [hs₀]
      rfl
  · rfl

theorem not_tailLoop_of_loop_free {e : Expr κ τ} (h : loop_free e = true)
    (params : List (Symbol × τ)) (body : Expr κ τ) : e ≠ .TailLoop params body := by
  rintro rfl
  cases h

omit [LawfulMonad m] in
/-- A call of a function that is no loop. -/
theorem call_body {f : Func κ τ} {id : FuncId} (hfind : find_func funcs id = some f)
    (hfree : loop_free f.body = true) (fuel : ℕ) (args : List V) :
    call M funcs (fuel + 1) id args =
      (enter f.params (fun _ => none) args).elim M.stuck (eval M (call M funcs fuel) f.body) := by
  rw [call, hfind]
  dsimp only
  cases enter f.params (fun _ => none) args with
  | none => rfl
  | some env =>
    dsimp only
    split
    · rename_i params body hbody
      exact absurd hbody (not_tailLoop_of_loop_free hfree params body)
    · rfl

/-- The turns of a rewritten body are the body, when calls with as much fuel mean the same. -/
theorem turns_rewrite {funcs' : List (Func κ τ)} {f : Func κ τ} {id : FuncId}
    (hfind : find_func funcs id = some f) (hfree : loop_free f.body = true)
    (hwrite : jumps_write id f.params f.body ∅ = true) {args₀ : List V} {scope : Env V}
    (hscope : enter f.params (fun _ => none) args₀ = some scope) (fuel : ℕ)
    (hcalls : ∀ n ≤ fuel, call M funcs' n = call M funcs n) (env : Env V) :
    turns M funcs' fuel f.params (rewrite_in_tail id f.params.length f.body) scope env =
      eval M (call M funcs fuel) f.body env := by
  induction fuel generalizing env with
  | zero =>
    rw [turns, hcalls 0 le_rfl, ← eval_tail_rewrite id f.body hfree ∅ hwrite env]
    refine bind_congr fun turn => ?_
    cases turn with
    | done v => rfl
    | jump args =>
      rw [settle, call]
  | succ fuel ih =>
    rw [turns, hcalls _ le_rfl, ← eval_tail_rewrite id f.body hfree ∅ hwrite env]
    refine bind_congr fun turn => ?_
    cases turn with
    | done v => rfl
    | jump args =>
      dsimp only
      rw [settle, call_body hfind hfree, enter_enter hscope]
      cases enter f.params (fun _ => none) args with
      | none => rfl
      | some env' => exact ih (fun n hn => hcalls n (hn.trans (Nat.le_succ _))) env'

/-- The program with its tail calls rewritten to loops means what it meant, with the same fuel, when no
tail call of a rewritten function is below a name that hides a parameter. -/
theorem call_lower_tail_calls (M : Meaning κ V m) (funcs : List (Func κ τ))
    (hfree : ∀ f ∈ funcs, loop_free f.body = true)
    (hwrite : ∀ f ∈ funcs, analyze_tail_recursion f.id f.params.length f.body = .TailRecursive →
      jumps_write f.id f.params f.body ∅ = true) (fuel : ℕ) (id : FuncId) (args : List V) :
    call M (funcs.map lower_tail_calls) fuel id args = call M funcs fuel id args := by
  induction fuel using Nat.strong_induction_on generalizing id args with
  | _ fuel ih =>
    cases fuel with
    | zero => rw [call, call]
    | succ fuel =>
      have hcalls : ∀ n ≤ fuel, call M (funcs.map lower_tail_calls) n = call M funcs n := by
        intro n hn
        funext id args
        exact ih n (Nat.lt_succ_of_le hn) id args
      cases hfind : find_func funcs id with
      | none =>
        rw [call, call, find_func_lower, hfind]
        rfl
      | some f =>
        have hf := hfree f (List.mem_of_find?_eq_some hfind)
        have hid : f.id = id := by simpa using List.find?_some hfind
        have hfind' : find_func (funcs.map lower_tail_calls) id = some (lower_tail_calls f) := by
          rw [find_func_lower, hfind]
          rfl
        rw [call_body hfind hf]
        by_cases hanalyze : analyze_tail_recursion f.id f.params.length f.body = .TailRecursive
        · have hlower : lower_tail_calls f =
              { f with body := rewrite_tail_calls f.id f.params.length f.params f.body } := by
            rw [lower_tail_calls, if_pos hanalyze]
          rw [call, hfind', hlower]
          dsimp only [rewrite_tail_calls]
          cases hscope : enter f.params (fun _ => none) args with
          | none => rfl
          | some scope =>
            have hwrites := hwrite f (List.mem_of_find?_eq_some hfind) hanalyze
            rw [hid] at hwrites ⊢
            exact turns_rewrite hfind hf hwrites hscope fuel hcalls scope
        · have hlower : lower_tail_calls f = f := by rw [lower_tail_calls, if_neg hanalyze]
          rw [hlower] at hfind'
          rw [call_body hfind' hf, hcalls fuel le_rfl]

end

/-! ### What is left in a rewritten body -/

mutual

/-- The backend writes the expression as a value: it meets no loop and no jump. -/
def emits_value : Expr κ τ → Bool
  | .Int _ => true
  | .Bool _ => true
  | .Float _ => true
  | .Str _ => true
  | .CustomElementRef _ _ => true
  | .Char _ => true
  | .Unit => true
  | .Var _ => true
  | .CloneVar _ => true
  | .Ctor _ _ _ args => all_emit args
  | .BinOp _ lhs rhs => emits_value lhs && emits_value rhs
  | .Let _ value body => emits_value value && emits_value body
  | .Destructure _ value body => emits_value value && emits_value body
  | .If cond then_ else_ => emits_value cond && (emits_value then_ && emits_value else_)
  | .Match scrutinee arms => emits_value scrutinee && arms_emit arms
  | .Call _ args _ _ => all_emit args
  | .Tuple items => all_emit items
  | .List _ items => all_emit items
  | .Cons head tail => emits_value head && emits_value tail
  | .ListIndexClone list _ => emits_value list
  | .ListLenCheck list _ _ => emits_value list
  | .Record fields _ => fields_emit fields
  | .Access record _ _ => emits_value record
  | .Update record fields => emits_value record && fields_emit fields
  | .Lambda _ _ body => emits_value body
  | .SharedLambda _ _ body => emits_value body
  | .OnceLambda _ _ body _ => emits_value body
  | .Apply func args => emits_value func && all_emit args
  | .FuncValue _ _ => true
  | .TaskSeq effect rest => emits_value effect && emits_value rest
  | .TailLoop _ _ => false
  | .TailRecur _ => false

def all_emit : List (Expr κ τ) → Bool
  | [] => true
  | e :: es => emits_value e && all_emit es

def fields_emit : List (Symbol × Expr κ τ) → Bool
  | [] => true
  | (_, e) :: fields => emits_value e && fields_emit fields

def arms_emit : List (Arm κ τ) → Bool
  | [] => true
  | .mk _ body guard :: arms => guard_emits guard && (emits_value body && arms_emit arms)

def guard_emits : Option (Expr κ τ) → Bool
  | none => true
  | some guard => emits_value guard

end

mutual

/-- The backend writes the expression as the tail of a loop with so many variables: each jump is in tail
position and has an argument for each variable. -/
def emits_tail (arity : ℕ) : Expr κ τ → Bool
  | .If cond then_ else_ => emits_value cond && (emits_tail arity then_ && emits_tail arity else_)
  | .Match scrutinee arms => emits_value scrutinee && arms_emit_tail arity arms
  | .Let _ value body => emits_value value && emits_tail arity body
  | .Destructure _ value body => emits_value value && emits_tail arity body
  | .TailRecur args => args.length == arity && all_emit args
  | other => emits_value other

def arms_emit_tail (arity : ℕ) : List (Arm κ τ) → Bool
  | [] => true
  | .mk _ body guard :: arms => guard_emits guard && (emits_tail arity body && arms_emit_tail arity arms)

end

mutual

/-- The jumps in tail position. -/
def jumps : Expr κ τ → ℕ
  | .If _ then_ else_ => jumps then_ + jumps else_
  | .Match _ arms => arm_jumps arms
  | .Let _ _ body => jumps body
  | .Destructure _ _ body => jumps body
  | .TailRecur _ => 1
  | _ => 0

def arm_jumps : List (Arm κ τ) → ℕ
  | [] => 0
  | .mk _ body _ :: arms => jumps body + arm_jumps arms

end

mutual

/-- The matches in tail position have arms that cover their type. -/
def covered : Expr κ τ → Bool
  | .If _ then_ else_ => covered then_ && covered else_
  | .Match _ arms => structurally_exhaustive (arms.map Arm.pat) && arms_covered arms
  | .Let _ _ body => covered body
  | .Destructure _ _ body => covered body
  | _ => true

def arms_covered : List (Arm κ τ) → Bool
  | [] => true
  | .mk _ body _ :: arms => covered body && arms_covered arms

end

section

variable (self_id : FuncId) (arity : ℕ)

theorem map_pat_rewrite_arms (arms : List (Arm κ τ)) :
    (rewrite_arms self_id arity arms).map Arm.pat = arms.map Arm.pat := by
  induction arms with
  | nil => rfl
  | cons arm arms ih =>
    obtain ⟨pat, body, guard⟩ := arm
    rw [rewrite_arms, List.map_cons, List.map_cons, ih]
    rfl

theorem rewrite_match {scrutinee : Expr κ τ} {arms : List (Arm κ τ)}
    (h : structurally_exhaustive (arms.map Arm.pat) = true) :
    rewrite_in_tail self_id arity (.Match scrutinee arms) =
      .Match scrutinee (rewrite_arms self_id arity arms) := by
  rw [rewrite_in_tail, new_flat, map_pat_rewrite_arms, if_pos h]
  rfl

mutual

/-- Outside of the tail no call counts as a tail call. -/
theorem count_value_fst (e : Expr κ τ) : (count_self_calls self_id arity e false).1 = 0 := by
  cases e with
  | Call callee args pin on_form =>
    cases callee with
    | Func id =>
      rw [count_self_calls, Prod.fst_add, count_all_fst args, add_zero]
      split_ifs with _ hfalse
      · cases hfalse
      · rfl
      · rfl
    | Kernel k => exact count_all_fst args
    | Ffi ident asserted => exact count_all_fst args
  | FuncValue callee ty =>
    cases callee with
    | Func id =>
      rw [count_self_calls]
      split_ifs <;> rfl
    | _ => rfl
  | Ctor home ty variant args => exact count_all_fst args
  | TailRecur args => exact count_all_fst args
  | Tuple items => exact count_all_fst items
  | List elem items => exact count_all_fst items
  | Record fields ty => exact count_fields_fst fields
  | Apply func args =>
    rw [count_self_calls, Prod.fst_add, count_value_fst func, count_all_fst args]
  | If cond then_ else_ =>
    rw [count_self_calls, Prod.fst_add, Prod.fst_add, count_value_fst cond, count_value_fst then_,
      count_value_fst else_]
  | Match scrutinee arms =>
    rw [count_self_calls, Prod.fst_add, count_value_fst scrutinee, count_arms_fst arms]
  | Let name value body =>
    rw [count_self_calls, Prod.fst_add, count_value_fst value, count_value_fst body]
  | Destructure binder value body =>
    rw [count_self_calls, Prod.fst_add, count_value_fst value, count_value_fst body]
  | Lambda params ret body => exact count_value_fst body
  | SharedLambda params ret body => exact count_value_fst body
  | OnceLambda params ret body capture => exact count_value_fst body
  | BinOp op lhs rhs =>
    rw [count_self_calls, Prod.fst_add, count_value_fst lhs, count_value_fst rhs]
  | Cons head tail =>
    rw [count_self_calls, Prod.fst_add, count_value_fst head, count_value_fst tail]
  | ListIndexClone list index => exact count_value_fst list
  | ListLenCheck list len exact_ => exact count_value_fst list
  | Update record fields =>
    rw [count_self_calls, Prod.fst_add, count_value_fst record, count_fields_fst fields]
  | Access record field field_ty => exact count_value_fst record
  | TaskSeq effect rest =>
    rw [count_self_calls, Prod.fst_add, count_value_fst effect, count_value_fst rest]
  | TailLoop params body => exact count_value_fst body
  | _ => rfl

theorem count_all_fst (es : List (Expr κ τ)) : (count_all self_id arity es).1 = 0 := by
  cases es with
  | nil => rfl
  | cons e es => rw [count_all, Prod.fst_add, count_value_fst e, count_all_fst es]

theorem count_fields_fst (fields : List (Symbol × Expr κ τ)) :
    (count_fields self_id arity fields).1 = 0 := by
  cases fields with
  | nil => rfl
  | cons field fields =>
    obtain ⟨name, e⟩ := field
    rw [count_fields, Prod.fst_add, count_value_fst e, count_fields_fst fields]

theorem count_arms_fst (arms : List (Arm κ τ)) : (count_arms self_id arity arms false).1 = 0 := by
  cases arms with
  | nil => rfl
  | cons arm arms =>
    obtain ⟨pat, body, guard⟩ := arm
    rw [count_arms, Prod.fst_add, Prod.fst_add, count_guard_fst guard, count_value_fst body,
      count_arms_fst arms]

theorem count_guard_fst (guard : Option (Expr κ τ)) : (count_guard self_id arity guard).1 = 0 := by
  cases guard with
  | none => rfl
  | some guard => exact count_value_fst guard

end

variable {self_id arity}

theorem eq_zero_of_snd {p : ℕ × ℕ} (hfst : p.1 = 0) (hsnd : p.2 = 0) : p = 0 :=
  Prod.ext hfst hsnd

theorem snd_add_eq_zero {p q : ℕ × ℕ} : (p + q).2 = 0 ↔ p.2 = 0 ∧ q.2 = 0 := by
  rw [Prod.snd_add, Nat.add_eq_zero_iff]

/-- What is left of a body, and what the backend makes of it: as many jumps as the body had tail calls,
and no call of itself. -/
structure Flat (self_id : FuncId) (arity : ℕ) (e rewritten : Expr κ τ) : Prop where
  count : count_self_calls self_id arity rewritten true = 0
  emits : emits_tail arity rewritten = true
  jumps : jumps rewritten = (count_self_calls self_id arity e true).1

/-- What is not rewritten is a value. -/
theorem Flat.value {e : Expr κ τ} (hcounts : ∀ in_tail,
      count_self_calls self_id arity e in_tail = count_self_calls self_id arity e false)
    (htail : emits_tail arity e = emits_value e) (hjumps : Ir.jumps e = 0)
    (hemits : emits_value e = true) (hcount : (count_self_calls self_id arity e true).2 = 0) :
    Flat self_id arity e e := by
  have hfst : (count_self_calls self_id arity e true).1 = 0 := by
    rw [hcounts, count_value_fst]
  exact ⟨eq_zero_of_snd hfst hcount, by rw [htail, hemits], by rw [hjumps, hfst]⟩

theorem Flat.call {id : FuncId} {args : List (Expr κ τ)} {pin : CallPin} {on_form : OnFormKind}
    (hemits : all_emit args = true)
    (hcount : (count_self_calls self_id arity (.Call (.Func id) args pin on_form) true).2 = 0) :
    Flat self_id arity (.Call (.Func id) args pin on_form)
      (rewrite_in_tail self_id arity (.Call (.Func id) args pin on_form)) := by
  rw [count_self_calls] at hcount
  obtain ⟨hself, hargs⟩ := snd_add_eq_zero.1 hcount
  have hargs : count_all self_id arity args = 0 :=
    eq_zero_of_snd (count_all_fst self_id arity args) hargs
  rw [rewrite_in_tail]
  by_cases hid : id = self_id
  · have harity : args.length = arity := by
      by_contra hne
      simp [hid, hne] at hself
    rw [if_pos ⟨hid, harity⟩]
    refine ⟨hargs, ?_, ?_⟩
    · simpa [emits_tail, harity] using hemits
    · simp [count_self_calls, Ir.jumps, hid, harity, hargs]
  · rw [if_neg fun h => hid h.1]
    refine ⟨?_, hemits, ?_⟩
    · rw [count_self_calls, hargs, if_neg hid]
      rfl
    · simp [count_self_calls, Ir.jumps, hid, hargs]

mutual

theorem rewrite_flat (e : Expr κ τ) (hemits : emits_value e = true) (hcovered : covered e = true)
    (hcount : (count_self_calls self_id arity e true).2 = 0) :
    Flat self_id arity e (rewrite_in_tail self_id arity e) := by
  -- A call in tail position is rewritten; elsewhere `hcount` leaves none.
  cases e with
  | Call callee args pin on_form =>
    cases callee with
    | Func id => exact .call hemits hcount
    | Kernel k => exact .value (fun _ => rfl) rfl rfl hemits hcount
    | Ffi ident asserted => exact .value (fun _ => rfl) rfl rfl hemits hcount
  | If cond then_ else_ =>
    rw [count_self_calls] at hcount
    obtain ⟨hrest, helse⟩ := snd_add_eq_zero.1 hcount
    obtain ⟨hcond, hthen⟩ := snd_add_eq_zero.1 hrest
    obtain ⟨hemits, hemits'⟩ := Bool.and_eq_true_iff.1 hemits
    obtain ⟨hemits₁, hemits₂⟩ := Bool.and_eq_true_iff.1 hemits'
    obtain ⟨hcovered₁, hcovered₂⟩ := Bool.and_eq_true_iff.1 hcovered
    obtain ⟨hc₁, he₁, hj₁⟩ := rewrite_flat then_ hemits₁ hcovered₁ hthen
    obtain ⟨hc₂, he₂, hj₂⟩ := rewrite_flat else_ hemits₂ hcovered₂ helse
    have hcond : count_self_calls self_id arity cond false = 0 :=
      eq_zero_of_snd (count_value_fst self_id arity cond) hcond
    refine ⟨?_, ?_, ?_⟩
    · rw [rewrite_in_tail, count_self_calls, hcond, hc₁, hc₂, add_zero, add_zero]
    · rw [rewrite_in_tail, emits_tail, hemits, he₁, he₂]
      rfl
    · rw [rewrite_in_tail, Ir.jumps, count_self_calls, hcond, hj₁, hj₂, zero_add, Prod.fst_add]
  | Let name value body =>
    rw [count_self_calls] at hcount
    obtain ⟨hvalue, hbody⟩ := snd_add_eq_zero.1 hcount
    obtain ⟨hemits, hemits'⟩ := Bool.and_eq_true_iff.1 hemits
    obtain ⟨hc, he, hj⟩ := rewrite_flat body hemits' hcovered hbody
    have hvalue : count_self_calls self_id arity value false = 0 :=
      eq_zero_of_snd (count_value_fst self_id arity value) hvalue
    refine ⟨?_, ?_, ?_⟩
    · rw [rewrite_in_tail, count_self_calls, hvalue, hc, add_zero]
    · rw [rewrite_in_tail, emits_tail, hemits, he]
      rfl
    · rw [rewrite_in_tail, Ir.jumps, count_self_calls, hvalue, hj, zero_add]
  | Destructure binder value body =>
    rw [count_self_calls] at hcount
    obtain ⟨hvalue, hbody⟩ := snd_add_eq_zero.1 hcount
    obtain ⟨hemits, hemits'⟩ := Bool.and_eq_true_iff.1 hemits
    obtain ⟨hc, he, hj⟩ := rewrite_flat body hemits' hcovered hbody
    have hvalue : count_self_calls self_id arity value false = 0 :=
      eq_zero_of_snd (count_value_fst self_id arity value) hvalue
    refine ⟨?_, ?_, ?_⟩
    · rw [rewrite_in_tail, count_self_calls, hvalue, hc, add_zero]
    · rw [rewrite_in_tail, emits_tail, hemits, he]
      rfl
    · rw [rewrite_in_tail, Ir.jumps, count_self_calls, hvalue, hj, zero_add]
  | Match scrutinee arms =>
    rw [count_self_calls] at hcount
    obtain ⟨hscrutinee, harms⟩ := snd_add_eq_zero.1 hcount
    obtain ⟨hemits, hemits'⟩ := Bool.and_eq_true_iff.1 hemits
    obtain ⟨hexhaustive, hcovered⟩ := Bool.and_eq_true_iff.1 hcovered
    obtain ⟨hc, he, hj⟩ := rewrite_arms_flat arms hemits' hcovered harms
    have hscrutinee : count_self_calls self_id arity scrutinee false = 0 :=
      eq_zero_of_snd (count_value_fst self_id arity scrutinee) hscrutinee
    rw [rewrite_match self_id arity hexhaustive]
    refine ⟨?_, ?_, ?_⟩
    · rw [count_self_calls, hscrutinee, hc, add_zero]
    · rw [emits_tail, hemits, he]
      rfl
    · rw [Ir.jumps, count_self_calls, hscrutinee, hj, zero_add]
  | FuncValue callee ty =>
    cases callee <;> exact .value (fun _ => rfl) rfl rfl hemits hcount
  | TailLoop params body => cases hemits
  | TailRecur args => cases hemits
  | _ => exact .value (fun _ => rfl) rfl rfl hemits hcount

theorem rewrite_arms_flat (arms : List (Arm κ τ)) (hemits : arms_emit arms = true)
    (hcovered : arms_covered arms = true) (hcount : (count_arms self_id arity arms true).2 = 0) :
    count_arms self_id arity (rewrite_arms self_id arity arms) true = 0 ∧
      arms_emit_tail arity (rewrite_arms self_id arity arms) = true ∧
      arm_jumps (rewrite_arms self_id arity arms) = (count_arms self_id arity arms true).1 := by
  cases arms with
  | nil => exact ⟨rfl, rfl, rfl⟩
  | cons arm arms =>
    obtain ⟨pat, body, guard⟩ := arm
    rw [count_arms] at hcount
    obtain ⟨hfirst, harms⟩ := snd_add_eq_zero.1 hcount
    obtain ⟨hguard, hbody⟩ := snd_add_eq_zero.1 hfirst
    obtain ⟨hemits, hemits'⟩ := Bool.and_eq_true_iff.1 hemits
    obtain ⟨hemits₁, hemits₂⟩ := Bool.and_eq_true_iff.1 hemits'
    obtain ⟨hcovered₁, hcovered₂⟩ := Bool.and_eq_true_iff.1 hcovered
    obtain ⟨hc₁, he₁, hj₁⟩ := rewrite_flat body hemits₁ hcovered₁ hbody
    obtain ⟨hc₂, he₂, hj₂⟩ := rewrite_arms_flat arms hemits₂ hcovered₂ harms
    have hguard : count_guard self_id arity guard = 0 :=
      eq_zero_of_snd (count_guard_fst self_id arity guard) hguard
    refine ⟨?_, ?_, ?_⟩
    · rw [rewrite_arms, count_arms, hguard, hc₁, hc₂, add_zero, add_zero]
    · rw [rewrite_arms, arms_emit_tail, hemits, he₁, he₂]
      rfl
    · rw [rewrite_arms, arm_jumps, count_arms, hguard, hj₁, hj₂, zero_add, Prod.fst_add]

end

end

theorem analyze_iff {self_id : FuncId} {arity : ℕ} {body : Expr κ τ} :
    analyze_tail_recursion self_id arity body = .TailRecursive ↔
      0 < (count_self_calls self_id arity body true).1 ∧
        (count_self_calls self_id arity body true).2 = 0 := by
  show (if (count_self_calls self_id arity body true).1 > 0 ∧
      (count_self_calls self_id arity body true).2 = 0 then TailRecursion.TailRecursive
    else .NotTailRecursive) = _ ↔ _
  split_ifs with h
  · exact iff_of_true rfl h
  · exact iff_of_false (by simp) h

/-- A function that is rewritten is a loop over its parameters. No reference to the function is left in
it, it has a jump, and each jump is where the backend writes one and has an argument for each
parameter. -/
theorem lower_tail_calls_flat (f : Func κ τ)
    (hanalyze : analyze_tail_recursion f.id f.params.length f.body = .TailRecursive)
    (hemits : emits_value f.body = true) (hcovered : covered f.body = true) :
    ∃ body, (lower_tail_calls f).body = .TailLoop f.params body ∧
      count_self_calls f.id f.params.length body true = 0 ∧
      emits_tail f.params.length body = true ∧ 0 < jumps body := by
  obtain ⟨htail, hcount⟩ := analyze_iff.1 hanalyze
  obtain ⟨hflat, htails, hjumps⟩ := @rewrite_flat κ τ f.id f.params.length f.body
    hemits hcovered hcount
  refine ⟨rewrite_in_tail f.id f.params.length f.body, ?_, hflat, htails, by rw [hjumps]; exact htail⟩
  rw [lower_tail_calls, if_pos hanalyze]
  rfl

/-! ### A sum -/

/-- `sum n acc = if n <= 0 then acc else let next = n - 1 in sum next (acc + n)` -/
def sumFunc : Func Empty Unit where
  id := 0
  params := [(0, ()), (1, ())]
  body := .If (.BinOp .Le (.Var 0) (.Int 0)) (.Var 1)
    (.Let 2 (.BinOp .IntSub (.Var 0) (.Int 1))
      (.Call (.Func 0) [.Var 2, .BinOp .IntAdd (.Var 1) (.Var 0)] .None .NotForm))

/-- The same with `n` for `next`: the jump would write the `n` of the turn. -/
example : jumps_write (κ := Empty) 0 [(0, ()), (1, ())]
    (.Let 0 (.BinOp .IntSub (.Var 0) (.Int 1)) (.Call (.Func 0) [.Var 0, .Var 1] .None .NotForm)) ∅ =
      false := by
  decide

theorem call_lower_tail_calls_sum :
    analyze_tail_recursion 0 2 sumFunc.body = .TailRecursive ∧
      call integers [sumFunc] 3 0 [2, 0] = some 3 ∧
        call integers [lower_tail_calls sumFunc] 3 0 [2, 0] = some 3 := by
  have hvalue : call integers [sumFunc] 3 0 [2, 0] = some 3 := by
    simp [call, find_func, sumFunc, enter, eval, eval_all, look_up, Env.extend, List.lookup_cons,
      integers]
  refine ⟨by decide, hvalue, ?_⟩
  rw [← hvalue]
  exact call_lower_tail_calls integers [sumFunc] (by decide) (by decide) 3 0 [2, 0]

theorem lower_tail_calls_flat_sum :
    ∃ body, (lower_tail_calls sumFunc).body = .TailLoop sumFunc.params body ∧
      count_self_calls 0 2 body true = 0 ∧ emits_tail 2 body = true ∧ 0 < jumps body :=
  lower_tail_calls_flat sumFunc (by decide) (by decide) (by decide)

end IpeLang.Ir
