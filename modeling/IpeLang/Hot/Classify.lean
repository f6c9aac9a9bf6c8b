import IpeLang.Lib.Json
import IpeLang.Hot.Arm

/-!
# Arms as data

An arm that sets one field of the model to a value of a small vocabulary is reduced to a
`Transition`, which is data.

* `transition_of_arm`: the transition of an arm;
* `Transition.to_json`: its text;
* `Sets`: what a transition does to a record;
* `transition_of_arm_sets`: an arm that is reduced to a transition does what that transition does.
-/

namespace IpeLang.Hot

open Lib (Str Json unitEscape intText)
open IpeLang.Types (Symbol)

/-! ### Transitions -/

/-- Where the operand of a transition comes from. -/
inductive Source
  | Int (n : BitVec 64)
  | Bool (b : Bool)
  | Str (s : Str)
  | Field (name : Str)
  deriving DecidableEq

inductive TransitionOp
  | Set | IntAdd | IntSub | BoolNot
  deriving DecidableEq, Repr

/-- One change of one field, which is named by its key. -/
structure Transition where
  field : Str
  op : TransitionOp
  source : Source
  deriving DecidableEq

/-! ### The text of a transition -/

/-- The spelling of a character in a string. -/
def escape (c : Char) : Str :=
  if c = '"' then ['\\', '"']
  else if c = '\\' then ['\\', '\\']
  else if c = '\n' then ['\\', 'n']
  else if c = '\r' then ['\\', 'r']
  else if c = '\t' then ['\\', 't']
  else if c = '\x08' then ['\\', 'b']
  else if c = '\x0c' then ['\\', 'f']
  else if c.toNat < 0x20 then unitEscape c.toNat
  else [c]

def write_json_string (s : Str) : Str := '"' :: s.flatMap escape ++ ['"']

def Source.write_json : Source → Lib.Str
  | .Int n => "\x7b\"Int\":".toList ++ intText n.toInt ++ ['}']
  | .Bool b => "\x7b\"Bool\":".toList ++ (if b then "true".toList else "false".toList) ++ ['}']
  | .Str s => "\x7b\"Str\":".toList ++ write_json_string s ++ ['}']
  | .Field name => "\x7b\"Field\":".toList ++ write_json_string name ++ ['}']

def TransitionOp.name : TransitionOp → Str
  | .Set => "Set".toList
  | .IntAdd => "IntAdd".toList
  | .IntSub => "IntSub".toList
  | .BoolNot => "BoolNot".toList

def Transition.to_json (t : Transition) : Str :=
  "\x7b\"field\":".toList ++ write_json_string t.field ++ ",\"op\":\"".toList ++ t.op.name ++
    "\",\"source\":".toList ++ t.source.write_json ++ ['}']

/-! ### The classifier -/

section Classify

variable (model_param : Symbol) (resolve : Symbol → Option Str) (env : List (Symbol × Expr))

/-- The variable that an expression reads. -/
def varOf : Expr → Option Symbol
  | .Var name => some name
  | .CloneVar name => some name
  | _ => none

def deref_loop : ℕ → Expr → Expr
  | 0, current => current
  | n + 1, current =>
    match varOf current with
    | none => current
    | some name =>
      match env.lookup name with
      | some value => deref_loop n value
      | none => current

/-- The expression that a variable stands for, through the bindings of the leading `let`s. -/
def deref_subst (e : Expr) : Expr := deref_loop env (env.length + 1) e

/-- Whether a bound value is one that need not be evaluated. -/
def is_inert_peelable : Expr → Bool
  | .Int _ => true
  | .Bool _ => true
  | .Str _ => true
  | .Var name => name == model_param || (env.map Prod.fst).contains name
  | .CloneVar name => name == model_param || (env.map Prod.fst).contains name
  | .Access record _ => is_inert_peelable record
  | .BinOp op lhs rhs =>
    (op == .IntAdd || op == .IntSub) && is_inert_peelable lhs && is_inert_peelable rhs
  | .Call .BasicsNot [arg] => is_inert_peelable arg
  | _ => false

/-- The bindings of the leading `let`s, and what follows them. -/
def peel (env : List (Symbol × Expr)) : Expr → Option (List (Symbol × Expr) × Expr)
  | .Let name value body =>
    if is_inert_peelable model_param env value then peel (env ++ [(name, value)]) body else none
  | e => some (env, e)

def is_cmd_none : Expr → Bool
  | .Call .CmdNone [] => true
  | _ => false

def is_var (e : Expr) (name : Symbol) : Bool := varOf e == some name

/-- The key of the field of the model that an expression reads. -/
def field_read : Expr → Option Str
  | .Access record field =>
    if is_var (deref_subst env record) model_param then resolve field else none
  | _ => none

def compile_op : BinOp → Option TransitionOp
  | .IntAdd => some .IntAdd
  | .IntSub => some .IntSub
  | _ => none

def int_literal : Expr → Option (BitVec 64)
  | .Int n => some n
  | _ => none

/-- The operand of a call of `not`. -/
def not_operand : Callee → List Expr → Option Expr
  | .BasicsNot, [arg] => some arg
  | _, _ => none

/-- The operator and the operand of the value that a field is set to. -/
def classify_rhs (target_field : Str) : Expr → Option (TransitionOp × Source)
  | .Int n => some (.Set, .Int n)
  | .Bool b => some (.Set, .Bool b)
  | .Str s => some (.Set, .Str s)
  | .Access record field =>
    (field_read model_param resolve env (.Access record field)).map fun name => (.Set, .Field name)
  | .BinOp op lhs rhs => do
    let op ← compile_op op
    let lhs_field ← field_read model_param resolve env (deref_subst env lhs)
    if lhs_field ≠ target_field then none
    else (int_literal (deref_subst env rhs)).map fun n => (op, .Int n)
  | .Call callee args => do
    let arg ← not_operand callee args
    let arg_field ← field_read model_param resolve env (deref_subst env arg)
    if arg_field ≠ target_field then none else some (.BoolNot, .Field target_field)
  | _ => none

def single_field_update : Expr → Option Transition
  | .Update record [(field_sym, rhs)] =>
    if is_var (deref_subst env record) model_param then do
      let field ← resolve field_sym
      let (op, source) ← classify_rhs model_param resolve env field (deref_subst env rhs)
      some ⟨field, op, source⟩
    else none
  | _ => none

/-- Reduce an arm to a transition. -/
def transition_of_arm : Expr → Option Transition
  | .Tuple [model_expr, cmd_expr] =>
    if is_cmd_none cmd_expr then do
      let (env, cursor) ← peel model_param [] model_expr
      single_field_update model_param resolve env cursor
    else none
  | _ => none

end Classify

/-! ### What a transition does -/

variable {D : Type}

/-- The value that a transition with this operator and operand gives to a field. -/
inductive Gives (key : Symbol → Str) (model : Fields D) (field : Symbol) :
    TransitionOp → Source → Value D → Prop
  | int (n : BitVec 64) : Gives key model field .Set (.Int n) (.int n)
  | bool (b : Bool) : Gives key model field .Set (.Bool b) (.bool b)
  | str (s : Str) : Gives key model field .Set (.Str s) (.str s)
  | field {g : Symbol} {v : Value D} (h : model.lookup g = some v) :
      Gives key model field .Set (.Field (key g)) v
  | add {a : BitVec 64} (n : BitVec 64) (h : model.lookup field = some (.int a)) :
      Gives key model field .IntAdd (.Int n) (.int (a + n))
  | sub {a : BitVec 64} (n : BitVec 64) (h : model.lookup field = some (.int a)) :
      Gives key model field .IntSub (.Int n) (.int (a - n))
  | not {b : Bool} (source : Source) (h : model.lookup field = some (.bool b)) :
      Gives key model field .BoolNot source (.bool (!b))

/-- A transition leads from a record to another one. -/
def Sets (key : Symbol → Str) (t : Transition) (model next : Fields D) : Prop :=
  ∃ field v, t.field = key field ∧ Gives key model field t.op t.source v ∧
    setField model field v = some next

/-! ### The leading bindings -/

/-- The names that the leading `let`s bind. -/
def letNames : Expr → List Symbol
  | .Let name _ body => name :: letNames body
  | _ => []

/-- The names that the leading `let`s of an arm bind. -/
def armNames : Expr → List Symbol
  | .Tuple (model_expr :: _) => letNames model_expr
  | _ => []

section Bindings

variable {sem : Semantics D} {m : Symbol} {env : List (Symbol × Expr)} {ρ : Env D}

/-- What a name stands for has its value. -/
def Stands (sem : Semantics D) (env : List (Symbol × Expr)) (ρ : Env D) : Prop :=
  ∀ name e, env.lookup name = some e → eval sem ρ e = ρ.lookup name

/-- What is bound by the leading `let`s need not be evaluated. -/
def Peeled (m : Symbol) (env : List (Symbol × Expr)) : Prop :=
  ∀ name e, env.lookup name = some e → is_inert_peelable m env e = true

/-- A binding of another name does not change the value of an expression that may be peeled. -/
theorem eval_fresh {name : Symbol} (hm : name ≠ m) (henv : name ∉ env.map Prod.fst) (v : Value D)
    {e : Expr} (h : is_inert_peelable m env e = true) :
    eval sem ((name, v) :: ρ) e = eval sem ρ e := by
  have hread : ∀ x, (x == m || (env.map Prod.fst).contains x) = true →
      ((name, v) :: ρ).lookup x = ρ.lookup x := by
    intro x hx
    have hne : x ≠ name := by
      rintro rfl
      simp [hm, henv] at hx
    rw [List.lookup_cons, beq_eq_false_iff_ne.2 hne]
  fun_induction is_inert_peelable m env e with
  | case1 => simp only [eval]
  | case2 => simp only [eval]
  | case3 => simp only [eval]
  | case4 x => simpa only [eval] using hread x h
  | case5 x => simpa only [eval] using hread x h
  | case6 record field ih => simp only [eval, ih h]
  | case7 op lhs rhs ihl ihr =>
    simp only [Bool.and_eq_true, Bool.or_eq_true, beq_iff_eq] at h
    obtain ⟨⟨rfl | rfl, hl⟩, hr⟩ := h
    · simp only [eval, ihl hl, ihr hr]
    · simp only [eval, ihl hl, ihr hr]
  | case8 arg ih => simp only [eval, evalList, ih h]
  | case9 => cases h

/-- More bindings do not take away that an expression may be peeled. -/
theorem is_inert_peelable_mono {env' : List (Symbol × Expr)} {e : Expr}
    (hsub : ∀ x ∈ env.map Prod.fst, x ∈ env'.map Prod.fst) (h : is_inert_peelable m env e = true) :
    is_inert_peelable m env' e = true := by
  have hread : ∀ x, (x == m || (env.map Prod.fst).contains x) = true →
      (x == m || (env'.map Prod.fst).contains x) = true := by
    intro x hx
    rw [Bool.or_eq_true, List.contains_iff_mem] at hx ⊢
    exact hx.imp_right (hsub x)
  fun_induction is_inert_peelable m env e with
  | case1 => rfl
  | case2 => rfl
  | case3 => rfl
  | case4 x => exact hread x h
  | case5 x => exact hread x h
  | case6 record field ih => exact ih h
  | case7 op lhs rhs ihl ihr =>
    simp only [Bool.and_eq_true] at h
    simp only [is_inert_peelable, Bool.and_eq_true]
    exact ⟨⟨h.1.1, ihl h.1.2⟩, ihr h.2⟩
  | case8 arg ih => exact ih h
  | case9 => cases h

/-- One more binding of a value that may be peeled. -/
theorem Stands.concat (hs : Stands sem env ρ) (hp : Peeled m env) {name : Symbol} {value : Expr}
    {v : Value D} (hm : name ≠ m) (henv : name ∉ env.map Prod.fst)
    (hvalue : is_inert_peelable m env value = true) (hv : eval sem ρ value = some v) :
    Stands sem (env ++ [(name, value)]) ((name, v) :: ρ) ∧ Peeled m (env ++ [(name, value)]) := by
  have hsub : ∀ x ∈ env.map Prod.fst, x ∈ (env ++ [(name, value)]).map Prod.fst := by
    intro x hx
    rw [List.map_append]
    exact List.mem_append_left _ hx
  have hcases : ∀ x e, (env ++ [(name, value)]).lookup x = some e →
      env.lookup x = some e ∧ x ≠ name ∨ x = name ∧ e = value := by
    intro x e hx
    rw [List.lookup_append, Option.or_eq_some_iff] at hx
    rcases hx with hx | ⟨-, hx⟩
    · refine Or.inl ⟨hx, ?_⟩
      rintro rfl
      obtain ⟨l₁, l₂, hsplit, -⟩ := List.lookup_eq_some_iff.1 hx
      exact henv (List.mem_map.2 ⟨(x, e), by simp [hsplit], rfl⟩)
    · right
      rw [List.lookup_cons] at hx
      split at hx
      · next heq => exact ⟨eq_of_beq heq, (Option.some.inj hx).symm⟩
      · cases hx
  constructor
  · intro x e hx
    rcases hcases x e hx with ⟨hx, hne⟩ | ⟨rfl, rfl⟩
    · rw [eval_fresh hm henv v (hp x e hx), hs x e hx, List.lookup_cons,
        beq_eq_false_iff_ne.2 hne]
    · rw [eval_fresh hm henv v hvalue, hv, List.lookup_cons, beq_self_eq_true]
  · intro x e hx
    rcases hcases x e hx with ⟨hx, -⟩ | ⟨rfl, rfl⟩
    · exact is_inert_peelable_mono hsub (hp x e hx)
    · exact is_inert_peelable_mono hsub hvalue

/-- Peeling keeps the value: the bindings stand for what the `let`s bind. -/
theorem peel_sound {e cursor : Expr} {env' : List (Symbol × Expr)} {v : Value D}
    (h : peel m env e = some (env', cursor)) (hs : Stands sem env ρ) (hp : Peeled m env)
    (hnodup : (letNames e).Nodup) (hm : m ∉ letNames e)
    (hfresh : ∀ x ∈ letNames e, x ∉ env.map Prod.fst) (hv : eval sem ρ e = some v) :
    ∃ ρ', Stands sem env' ρ' ∧ ρ'.lookup m = ρ.lookup m ∧ eval sem ρ' cursor = some v := by
  fun_induction peel m env e generalizing ρ with
  | case1 env name value body hvalue ih =>
    rw [letNames] at hnodup hm hfresh
    obtain ⟨hname, hnodup⟩ := List.nodup_cons.1 hnodup
    obtain ⟨hmname, hm⟩ := not_or.1 (mt List.mem_cons.2 hm)
    obtain ⟨hnew, hfresh⟩ := List.forall_mem_cons.1 hfresh
    rw [eval, Option.bind_eq_some_iff] at hv
    obtain ⟨w, hw, hv⟩ := hv
    obtain ⟨hs', hp'⟩ := hs.concat hp (Ne.symm hmname) hnew hvalue hw
    have hfresh' : ∀ x ∈ letNames body, x ∉ (env ++ [(name, value)]).map Prod.fst := by
      intro x hx hmem
      rw [List.map_append, List.mem_append] at hmem
      rcases hmem with hmem | hmem
      · exact hfresh x hx hmem
      · have hxn : x = name := by simpa using hmem
        exact hname (hxn ▸ hx)
    obtain ⟨ρ', hstands, hlookup, heval⟩ := ih h hs' hp' hnodup hm hfresh' hv
    refine ⟨ρ', hstands, ?_, heval⟩
    rw [hlookup, List.lookup_cons, beq_eq_false_iff_ne.2 hmname]
  | case2 => cases h
  | case3 env e =>
    simp only [Option.some.injEq, Prod.mk.injEq] at h
    obtain ⟨rfl, rfl⟩ := h
    exact ⟨ρ, hs, rfl, hv⟩

/-- What an expression stands for has its value. -/
theorem eval_deref_loop (hs : Stands sem env ρ) (n : ℕ) (e : Expr) :
    eval sem ρ (deref_loop env n e) = eval sem ρ e := by
  induction n generalizing e with
  | zero => rfl
  | succ n ih =>
    have hvar : ∀ name, varOf e = some name → eval sem ρ e = ρ.lookup name := by
      intro name hname
      cases e <;> cases hname <;> rw [eval]
    rw [deref_loop]
    split
    · rfl
    · next name hname =>
      split
      · next value hvalue => rw [ih, hs name value hvalue, hvar name hname]
      · rfl

theorem eval_deref_subst (hs : Stands sem env ρ) (e : Expr) :
    eval sem ρ (deref_subst env e) = eval sem ρ e := eval_deref_loop hs _ e

theorem eval_is_var {e : Expr} {name : Symbol} (h : is_var e name = true) :
    eval sem ρ e = ρ.lookup name := by
  cases e <;> simp [is_var, varOf] at h <;> rw [eval, h]

section Update

variable {key : Symbol → Str} {resolve : Symbol → Option Str} {model : Fields D}

/-- A read of a field of the model. -/
theorem field_read_sound (hs : Stands sem env ρ) (hmodel : ρ.lookup m = some (.record model))
    (hresolve : ∀ s k, resolve s = some k → k = key s) {e : Expr} {name : Str}
    (h : field_read m resolve env e = some name) :
    ∃ g, name = key g ∧ eval sem ρ e = model.lookup g := by
  cases e with
  | Access record field =>
    rw [field_read] at h
    split_ifs at h with hvar
    refine ⟨field, hresolve field name h, ?_⟩
    have hrecord : eval sem ρ record = some (.record model) := by
      rw [← eval_deref_subst hs, eval_is_var hvar, hmodel]
    rw [eval, hrecord]
    rfl
  | _ => cases h

theorem eval_int_literal {e : Expr} {n : BitVec 64} (h : int_literal e = some n) :
    eval sem ρ e = some (.int n) := by
  cases e <;> cases h
  rw [eval]

theorem eval_not_operand {callee : Callee} {args : List Expr} {arg : Expr} {v : Value D}
    (h : not_operand callee args = some arg) (hv : eval sem ρ (.Call callee args) = some v) :
    ∃ b, eval sem ρ arg = some (.bool b) ∧ v = .bool (!b) := by
  unfold not_operand at h
  split at h
  · cases h
    rw [eval, evalList, evalList] at hv
    cases harg : eval sem ρ arg with
    | none => simp [harg] at hv
    | some w =>
      cases w with
      | bool b => exact ⟨b, rfl, by simpa [harg, evalCall] using hv.symm⟩
      | _ => simp [harg, evalCall] at hv
  · cases h

/-- An operation on integers has a value only for integers. -/
theorem intOp_eq_some {op : BitVec 64 → BitVec 64 → BitVec 64} {a b : Option (Value D)} {v : Value D}
    (h : intOp op a b = some v) :
    ∃ n n', a = some (.int n) ∧ b = some (.int n') ∧ v = .int (op n n') := by
  unfold intOp at h
  split at h
  · exact ⟨_, _, rfl, rfl, (Option.some.inj h).symm⟩
  · cases h

/-- The operator and the operand of a value give that value. -/
theorem classify_rhs_sound (hs : Stands sem env ρ) (hmodel : ρ.lookup m = some (.record model))
    (hresolve : ∀ s k, resolve s = some k → k = key s) (hkey : Function.Injective key)
    {field : Symbol} {e : Expr} {op : TransitionOp} {source : Source} {v : Value D}
    (h : classify_rhs m resolve env (key field) e = some (op, source))
    (hv : eval sem ρ e = some v) : Gives key model field op source v := by
  have hsame : ∀ e', (∃ name, field_read m resolve env (deref_subst env e') = some name ∧
      name = key field) → eval sem ρ e' = model.lookup field := by
    rintro e' ⟨name, hname, rfl⟩
    obtain ⟨g, hg, heval⟩ := field_read_sound hs hmodel hresolve hname
    rw [← eval_deref_subst hs, heval, hkey hg]
  cases e with
  | Int n =>
    cases h
    cases hv.symm.trans (eval.eq_def sem ρ _)
    exact .int n
  | Bool b =>
    cases h
    cases hv.symm.trans (eval.eq_def sem ρ _)
    exact .bool b
  | Str s =>
    cases h
    cases hv.symm.trans (eval.eq_def sem ρ _)
    exact .str s
  | Access record g =>
    rw [classify_rhs, Option.map_eq_some_iff] at h
    obtain ⟨name, hname, h⟩ := h
    cases h
    obtain ⟨g', rfl, heval⟩ := field_read_sound hs hmodel hresolve hname
    exact .field (heval.symm.trans hv)
  | BinOp bop lhs rhs =>
    simp only [classify_rhs, Option.bind_eq_bind, Option.bind_eq_some_iff] at h
    obtain ⟨op', hop, name, hname, h⟩ := h
    split_ifs at h with hfield
    obtain ⟨n, hn, h⟩ := Option.map_eq_some_iff.1 h
    cases h
    have hlhs := hsame lhs ⟨name, hname, not_not.1 hfield⟩
    have hrhs : eval sem ρ rhs = some (.int n) := by
      rw [← eval_deref_subst hs, eval_int_literal hn]
    cases bop with
    | IntAdd =>
      cases hop
      rw [eval] at hv
      obtain ⟨a, b, ha, hb, rfl⟩ := intOp_eq_some hv
      cases hrhs.symm.trans hb
      exact .add n (hlhs.symm.trans ha)
    | IntSub =>
      cases hop
      rw [eval] at hv
      obtain ⟨a, b, ha, hb, rfl⟩ := intOp_eq_some hv
      cases hrhs.symm.trans hb
      exact .sub n (hlhs.symm.trans ha)
    | _ => cases hop
  | Call callee args =>
    simp only [classify_rhs, Option.bind_eq_bind, Option.bind_eq_some_iff] at h
    obtain ⟨arg, harg, name, hname, h⟩ := h
    split_ifs at h with hfield
    cases h
    have hread := hsame arg ⟨name, hname, not_not.1 hfield⟩
    obtain ⟨b, hb, rfl⟩ := eval_not_operand harg hv
    exact .not _ (hread.symm.trans hb)
  | _ => cases h

theorem single_field_update_sound (hs : Stands sem env ρ)
    (hmodel : ρ.lookup m = some (.record model)) (hresolve : ∀ s k, resolve s = some k → k = key s)
    (hkey : Function.Injective key) {e : Expr} {t : Transition} {v : Value D}
    (h : single_field_update m resolve env e = some t) (hv : eval sem ρ e = some v) :
    ∃ next, v = .record next ∧ Sets key t model next := by
  unfold single_field_update at h
  split at h
  case h_2 => cases h
  case h_1 record field rhs =>
    split_ifs at h with hvar
    simp only [Option.bind_eq_bind, Option.bind_eq_some_iff, Prod.exists] at h
    obtain ⟨name, hname, op, source, hclassify, h⟩ := h
    cases h
    obtain rfl := hresolve field name hname
    have hrecord : eval sem ρ record = some (.record model) := by
      rw [← eval_deref_subst hs, eval_is_var hvar, hmodel]
    rw [eval, evalFields, evalFields, hrecord] at hv
    cases hrhs : eval sem ρ rhs with
    | none => simp [hrhs] at hv
    | some w =>
      simp only [hrhs, Option.bind_some, Option.map_some, evalUpdate, List.foldlM_cons,
        List.foldlM_nil, Option.map_eq_some_iff, Option.bind_eq_bind] at hv
      obtain ⟨next, hnext, rfl⟩ := hv
      rw [← eval_deref_subst hs] at hrhs
      refine ⟨next, rfl, field, w, rfl, classify_rhs_sound hs hmodel hresolve hkey hclassify hrhs, ?_⟩
      simpa using hnext

/-- An arm that is reduced to a transition does what the transition does, without a command. -/
theorem transition_of_arm_sets (hmodel : ρ.lookup m = some (.record model))
    (hresolve : ∀ s k, resolve s = some k → k = key s) (hkey : Function.Injective key) {e : Expr}
    (hnodup : (armNames e).Nodup) (hm : m ∉ armNames e) {t : Transition} {v : Value D}
    (h : transition_of_arm m resolve e = some t) (hv : eval sem ρ e = some v) :
    ∃ next, v = .tuple [.record next, .cmdNone] ∧ Sets key t model next := by
  unfold transition_of_arm at h
  split at h
  case h_2 => cases h
  case h_1 model_expr cmd_expr =>
    split_ifs at h with hcmd
    simp only [Option.bind_eq_bind, Option.bind_eq_some_iff, Prod.exists] at h
    obtain ⟨env', cursor, hpeel, h⟩ := h
    have hcmd' : eval sem ρ cmd_expr = some .cmdNone := by
      unfold is_cmd_none at hcmd
      split at hcmd
      · rw [eval, evalList]
        rfl
      · cases hcmd
    rw [eval, evalList, evalList, evalList, hcmd'] at hv
    cases hvalue : eval sem ρ model_expr with
    | none => simp [hvalue] at hv
    | some w =>
      rw [hvalue] at hv
      cases hv
      obtain ⟨ρ', hs, hlookup, heval⟩ := peel_sound hpeel (by rintro x e ⟨⟩) (by rintro x e ⟨⟩) hnodup
        hm (by simp) hvalue
      obtain ⟨next, rfl, hsets⟩ := single_field_update_sound hs (hlookup.trans hmodel) hresolve hkey h
        heval
      exact ⟨next, rfl, hsets⟩

end Update

end Bindings

end IpeLang.Hot
