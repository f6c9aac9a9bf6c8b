import IpeLang.Lib.Text
import IpeLang.Types.Ty

/-!
# Arms of `update`

An arm of `update` is an expression that evaluates to the next model and a command. `Expr` has the
expressions that the classifier of arms looks into; what it does not look into is `Other`, and its
meaning is a parameter.

* `eval`: the value of an expression, with 64-bit wrapping integers;
* `setField`: a record with another value in one of its fields.
-/

namespace IpeLang.Hot

open Lib (Str)
open IpeLang.Types (Symbol)

/-- The binary operators. -/
inductive BinOp
  | IntAdd | IntSub | IntMul | FloatAdd | FloatSub | FloatMul | Add | Sub | Mul | Div | Eq | Neq | Lt
  | Gt | Le | Ge | And | Or | IntDiv | Append
  deriving DecidableEq, Repr

/-- What a call may call: two kernel functions, and anything else. -/
inductive Callee
  | BasicsNot
  | CmdNone
  | Other (id : ℕ)
  deriving DecidableEq, Repr

inductive Expr
  | Int (n : BitVec 64)
  | Bool (b : Bool)
  | Str (s : Str)
  | Var (name : Symbol)
  | CloneVar (name : Symbol)
  | BinOp (op : BinOp) (lhs rhs : Expr)
  | Let (name : Symbol) (value body : Expr)
  | Call (callee : Callee) (args : List Expr)
  | Tuple (elems : List Expr)
  | Access (record : Expr) (field : Symbol)
  | Update (record : Expr) (fields : List (Symbol × Expr))
  | Other (id : ℕ)

/-- The values; those that arms only pass on are `data`. -/
inductive Value (D : Type)
  | int (n : BitVec 64)
  | bool (b : Bool)
  | str (s : Str)
  | record (fields : List (Symbol × Value D))
  | tuple (elems : List (Value D))
  | cmdNone
  | data (d : D)

/-- A record value. -/
abbrev Fields (D : Type) := List (Symbol × Value D)

/-- The bindings of variables, innermost first. -/
abbrev Env (D : Type) := List (Symbol × Value D)

variable {D : Type}

/-- The record with another value in a field that it has. -/
def setField (fields : Fields D) (name : Symbol) (value : Value D) : Option (Fields D) :=
  if name ∈ fields.map Prod.fst then
    some (fields.map fun f => if f.1 = name then (f.1, value) else f)
  else none

/-- The meaning of what the classifier does not look into. An operator is given what its operands
evaluate to, so that it need not evaluate both. -/
structure Semantics (D : Type) where
  binOp : BinOp → Option (Value D) → Option (Value D) → Option (Value D)
  call : Callee → List (Value D) → Option (Value D)
  other : ℕ → Env D → Option (Value D)

/-- An operator on two integers. -/
def intOp (op : BitVec 64 → BitVec 64 → BitVec 64) :
    Option (Value D) → Option (Value D) → Option (Value D)
  | some (.int a), some (.int b) => some (.int (op a b))
  | _, _ => none

def access : Option (Value D) → Symbol → Option (Value D)
  | some (.record fields), name => fields.lookup name
  | _, _ => none

def evalCall (sem : Semantics D) : Callee → List (Value D) → Option (Value D)
  | .BasicsNot, [.bool b] => some (.bool (!b))
  | .BasicsNot, _ => none
  | .CmdNone, [] => some .cmdNone
  | .CmdNone, _ => none
  | .Other id, args => sem.call (.Other id) args

def evalUpdate : Option (Value D) → List (Symbol × Value D) → Option (Value D)
  | some (.record fields), updates =>
    (updates.foldlM (fun fields u => setField fields u.1 u.2) fields).map .record
  | _, _ => none

section Eval

variable (sem : Semantics D)

mutual

/-- The value of an expression; none when it has the wrong type or aborts. -/
def eval (ρ : Env D) : Expr → Option (Value D)
  | .Int n => some (.int n)
  | .Bool b => some (.bool b)
  | .Str s => some (.str s)
  | .Var name => ρ.lookup name
  | .CloneVar name => ρ.lookup name
  | .BinOp .IntAdd lhs rhs => intOp (· + ·) (eval ρ lhs) (eval ρ rhs)
  | .BinOp .IntSub lhs rhs => intOp (· - ·) (eval ρ lhs) (eval ρ rhs)
  | .BinOp op lhs rhs => sem.binOp op (eval ρ lhs) (eval ρ rhs)
  | .Let name value body => (eval ρ value).bind fun v => eval ((name, v) :: ρ) body
  | .Call callee args => (evalList ρ args).bind (evalCall sem callee)
  | .Tuple elems => (evalList ρ elems).map .tuple
  | .Access record field => access (eval ρ record) field
  | .Update record fields => (evalFields ρ fields).bind (evalUpdate (eval ρ record))
  | .Other id => sem.other id ρ

def evalList (ρ : Env D) : List Expr → Option (List (Value D))
  | [] => some []
  | e :: es => (eval ρ e).bind fun v => (evalList ρ es).map fun vs => v :: vs

def evalFields (ρ : Env D) : List (Symbol × Expr) → Option (List (Symbol × Value D))
  | [] => some []
  | (name, e) :: fs => (eval ρ e).bind fun v => (evalFields ρ fs).map fun vs => (name, v) :: vs

end

end Eval

end IpeLang.Hot
