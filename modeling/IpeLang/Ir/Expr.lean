import Mathlib.Data.Finset.Basic
import Mathlib.Data.Finset.Union
import Mathlib.Tactic

/-!
# The intermediate representation

Expressions as the lowerer leaves them for the backend. The types that they are annotated with, and the
kernel functions that they call, are parameters: no pass of these modules looks inside of them.

* `Pat`, `Expr`, `Arm`: the syntax;
* `pat_binds_target`, `pat_bound_symbols`: the names that a pattern binds;
* `new_flat`: the arms that a match may have.
-/

namespace IpeLang.Ir

/-- An interned name. -/
abbrev Symbol := ℕ

abbrev ModPath := List Symbol

abbrev FuncId := ℕ

inductive BinOp
  | IntAdd | IntSub | IntMul | FloatAdd | FloatSub | FloatMul | Add | Sub | Mul | Div
  | Eq | Neq | Lt | Gt | Le | Ge | And | Or | IntDiv | Append
  deriving DecidableEq, Repr

inductive CallPin
  | None | DefaultI64 | DefaultDict | DefaultResultMapErr | ErrIpeError
  deriving DecidableEq, Repr

inductive OnFormKind
  | NotForm | Decoder | FixedValue
  deriving DecidableEq, Repr

/-- A local that a closure moves, and where in the source it does. -/
structure MovedCapture where
  name : Symbol
  lo : ℕ
  hi : ℕ
  deriving DecidableEq, Repr

inductive Pat
  | Var (s : Symbol)
  | Wildcard
  | Int (n : ℤ)
  | Bool (b : Bool)
  | Char (c : String)
  | Str (s : String)
  | Alias (inner : Pat) (s : Symbol)
  | Ctor (home : ModPath) (ty variant : Symbol) (args : List Pat)
  | Tuple (elems : List Pat)
  | Record (fields : List (Symbol × Pat))
  | Slice (leading : List Pat) (rest : Option Pat)
  | Or (alts : List Pat)

/-- The target of a call; `κ` are the kernel functions. -/
inductive Callee (κ : Type)
  | Func (id : FuncId)
  | Kernel (k : κ)
  | Ffi (ident : Symbol) (asserted : Bool)
  deriving DecidableEq, Repr

mutual

/-- An expression; `τ` are the types. A float is known by its bits. -/
inductive Expr (κ τ : Type)
  | Int (n : ℤ)
  | Bool (b : Bool)
  | Float (bits : UInt64)
  | Str (s : String)
  | CustomElementRef (tag js_path : String)
  | Char (c : String)
  | Unit
  | Var (s : Symbol)
  | CloneVar (s : Symbol)
  | Ctor (home : ModPath) (ty variant : Symbol) (args : List (Expr κ τ))
  | BinOp (op : BinOp) (lhs rhs : Expr κ τ)
  | Let (name : Symbol) (value body : Expr κ τ)
  | Destructure (binder : Pat) (value body : Expr κ τ)
  | If (cond then_ else_ : Expr κ τ)
  | Match (scrutinee : Expr κ τ) (arms : List (Arm κ τ))
  | Call (callee : Callee κ) (args : List (Expr κ τ)) (pin : CallPin) (on_form : OnFormKind)
  | Tuple (items : List (Expr κ τ))
  | List (elem : τ) (items : List (Expr κ τ))
  | Cons (head tail : Expr κ τ)
  | ListIndexClone (list : Expr κ τ) (index : ℕ)
  | ListLenCheck (list : Expr κ τ) (len : ℕ) (exact : Bool)
  | Record (fields : List (Symbol × Expr κ τ)) (ty : Option τ)
  | Access (record : Expr κ τ) (field : Symbol) (field_ty : τ)
  | Update (record : Expr κ τ) (fields : List (Symbol × Expr κ τ))
  | Lambda (params : List (Symbol × τ)) (ret : τ) (body : Expr κ τ)
  | SharedLambda (params : List (Symbol × τ)) (ret : τ) (body : Expr κ τ)
  | OnceLambda (params : List (Symbol × τ)) (ret : τ) (body : Expr κ τ) (capture : MovedCapture)
  | Apply (func : Expr κ τ) (args : List (Expr κ τ))
  | FuncValue (callee : Callee κ) (ty : τ)
  | TaskSeq (effect rest : Expr κ τ)
  | TailLoop (params : List (Symbol × τ)) (body : Expr κ τ)
  | TailRecur (args : List (Expr κ τ))

/-- An arm of a match. -/
inductive Arm (κ τ : Type)
  | mk (pat : Pat) (body : Expr κ τ) (guard : Option (Expr κ τ))

end

variable {κ τ : Type}

def Arm.pat : Arm κ τ → Pat
  | .mk pat _ _ => pat

def Arm.body : Arm κ τ → Expr κ τ
  | .mk _ body _ => body

def Arm.guard : Arm κ τ → Option (Expr κ τ)
  | .mk _ _ guard => guard

/-- A named function. -/
structure Func (κ τ : Type) where
  id : FuncId
  params : List (Symbol × τ)
  body : Expr κ τ

/-! ### The names of a pattern -/

mutual

def pat_binds_target (target : Symbol) : Pat → Bool
  | .Var s => s == target
  | .Wildcard => false
  | .Int _ => false
  | .Bool _ => false
  | .Char _ => false
  | .Str _ => false
  | .Alias inner s => s == target || pat_binds_target target inner
  | .Ctor _ _ _ args => any_binds_target target args
  | .Tuple elems => any_binds_target target elems
  | .Record fields => field_binds_target target fields
  | .Slice leading rest => any_binds_target target leading || rest_binds_target target rest
  | .Or alts => any_binds_target target alts

def any_binds_target (target : Symbol) : List Pat → Bool
  | [] => false
  | p :: ps => pat_binds_target target p || any_binds_target target ps

def field_binds_target (target : Symbol) : List (Symbol × Pat) → Bool
  | [] => false
  | (_, p) :: fields => pat_binds_target target p || field_binds_target target fields

def rest_binds_target (target : Symbol) : Option Pat → Bool
  | none => false
  | some p => pat_binds_target target p

end

mutual

def pat_bound_symbols : Pat → Finset Symbol
  | .Var s => {s}
  | .Wildcard => ∅
  | .Int _ => ∅
  | .Bool _ => ∅
  | .Char _ => ∅
  | .Str _ => ∅
  | .Alias inner s => {s} ∪ pat_bound_symbols inner
  | .Ctor _ _ _ args => all_bound_symbols args
  | .Tuple elems => all_bound_symbols elems
  | .Record fields => field_bound_symbols fields
  | .Slice leading rest => all_bound_symbols leading ∪ rest_bound_symbols rest
  -- Each alternative binds the same names.
  | .Or alts => first_bound_symbols alts

def all_bound_symbols : List Pat → Finset Symbol
  | [] => ∅
  | p :: ps => pat_bound_symbols p ∪ all_bound_symbols ps

def field_bound_symbols : List (Symbol × Pat) → Finset Symbol
  | [] => ∅
  | (_, p) :: fields => pat_bound_symbols p ∪ field_bound_symbols fields

def rest_bound_symbols : Option Pat → Finset Symbol
  | none => ∅
  | some p => pat_bound_symbols p

def first_bound_symbols : List Pat → Finset Symbol
  | [] => ∅
  | p :: _ => pat_bound_symbols p

end

/-! ### The arms of a match -/

mutual

def is_irrefutable : Pat → Bool
  | .Wildcard => true
  | .Var _ => true
  | .Alias inner _ => is_irrefutable inner
  | .Or alts => all_irrefutable alts
  | .Int _ => false
  | .Bool _ => false
  | .Char _ => false
  | .Str _ => false
  | .Ctor _ _ _ _ => false
  | .Tuple _ => false
  | .Record _ => false
  | .Slice _ _ => false

def all_irrefutable : List Pat → Bool
  | [] => true
  | p :: ps => is_irrefutable p && all_irrefutable ps

end

mutual

def is_list_shaped : Pat → Bool
  | .Slice _ _ => true
  | .Wildcard => true
  | .Var _ => true
  | .Alias inner _ => is_list_shaped inner
  | .Or alts => all_list_shaped alts
  | .Int _ => false
  | .Bool _ => false
  | .Char _ => false
  | .Str _ => false
  | .Ctor _ _ _ _ => false
  | .Tuple _ => false
  | .Record _ => false

def all_list_shaped : List Pat → Bool
  | [] => true
  | p :: ps => is_list_shaped p && all_list_shaped ps

end

mutual

def is_ctor_headed : Pat → Bool
  | .Ctor _ _ _ _ => true
  | .Alias inner _ => is_ctor_headed inner
  | .Or alts => all_ctor_headed alts
  | .Wildcard => false
  | .Var _ => false
  | .Int _ => false
  | .Bool _ => false
  | .Char _ => false
  | .Str _ => false
  | .Tuple _ => false
  | .Record _ => false
  | .Slice _ _ => false

def all_ctor_headed : List Pat → Bool
  | [] => true
  | p :: ps => is_ctor_headed p && all_ctor_headed ps

end

mutual

def is_product_shaped : Pat → Bool
  | .Tuple _ => true
  | .Wildcard => true
  | .Var _ => true
  | .Alias inner _ => is_product_shaped inner
  | .Or alts => all_product_shaped alts
  | .Int _ => false
  | .Bool _ => false
  | .Char _ => false
  | .Str _ => false
  | .Ctor _ _ _ _ => false
  | .Record _ => false
  | .Slice _ _ => false

def all_product_shaped : List Pat → Bool
  | [] => true
  | p :: ps => is_product_shaped p && all_product_shaped ps

end

def is_bool (b : Bool) : Pat → Bool
  | .Bool b' => b == b'
  | _ => false

def is_slice : Pat → Bool
  | .Slice _ _ => true
  | _ => false

def is_tuple : Pat → Bool
  | .Tuple _ => true
  | _ => false

/-- The patterns of a match cover their type, as far as their shapes tell. -/
def structurally_exhaustive (pats : List Pat) : Bool :=
  match pats.getLast? with
  | none => false
  | some last =>
    is_irrefutable last ||
      (pats.all (fun p => is_bool true p || is_bool false p) && pats.any (is_bool true) &&
        pats.any (is_bool false)) ||
      pats.all is_ctor_headed ||
      (pats.all is_list_shaped && pats.any is_slice) ||
      (pats.all is_product_shaped && pats.any is_tuple)

def new_flat (scrutinee : Expr κ τ) (arms : List (Arm κ τ)) : Option (Expr κ τ) :=
  if structurally_exhaustive (arms.map Arm.pat) then some (.Match scrutinee arms) else none

end IpeLang.Ir
