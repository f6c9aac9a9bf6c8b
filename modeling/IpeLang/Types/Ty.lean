import IpeLang.Lib.SortedMap

/-!
# The two type levels of inference

`types/src/ty.rs`, with what it uses of the interner.

* `Ty` is a resolved type, read back once the solver settles;
* `Content` and `FlatType` are the descriptors that the solver keeps in the union-find arena;
* `TyBounds` is the set of operations that a super-typed variable must support.

A field map of the solver is a `SortedMap`; inside the inductive type `Ty` it is the list of its
entries in key order.
-/

namespace IpeLang.Types

open IpeLang.Lib

/-- An interned name (`ipe_intern::Symbol`). -/
abbrev Symbol := ℕ

/-- An index into the union-find arena. -/
abbrev VarId := ℕ

/-- The symbol table: the interned strings by their raw index. -/
structure Interner where
  strings : List String

/-- The text of a symbol, `none` for one that was never interned. -/
def Interner.resolve (ι : Interner) (s : Symbol) : Option String := ι.strings[s]?

/-- The tail of a resolved record type. -/
inductive RowTail
  | closed
  | opened (raw : ℕ)
  deriving DecidableEq, Repr

/-- A resolved type. -/
inductive Ty
  | var (raw : ℕ)
  | fn (arg result : Ty)
  | con (home : List Symbol) (name : Symbol) (args : List Ty)
  | unit
  | tuple (elems : List Ty)
  | record (fields : List (Symbol × Ty)) (tail : RowTail)
  deriving Repr

/-- The bit that marks the raw id of a `Ty.var` as a solver variable. -/
def solverVarTag : ℕ := 2 ^ 31

/-- Tag a solver variable for storage in a `Ty.var`. -/
def tagSolverVar (id : VarId) : ℕ := id ||| solverVarTag

/-! ### Super-type obligations -/

/-- The obligations of a super-typed variable, one bit each. -/
structure TyBounds where
  bits : BitVec 16
  deriving DecidableEq, Repr

namespace TyBounds

def ADD : BitVec 16 := 1 <<< 0
def SUB : BitVec 16 := 1 <<< 1
def MUL : BitVec 16 := 1 <<< 2
def ORD : BitVec 16 := 1 <<< 3
def EQ : BitVec 16 := 1 <<< 4
def SET_ELEM : BitVec 16 := 1 <<< 5
def DICT_KEY : BitVec 16 := 1 <<< 6
def SHOW : BitVec 16 := 1 <<< 7
def APPEND : BitVec 16 := 1 <<< 8
def HOF_KERNEL_RESULT : BitVec 16 := 1 <<< 9
def SQL_PARAM : BitVec 16 := 1 <<< 10
def INTERPOLABLE : BitVec 16 := 1 <<< 11

/-- Whether an obligation of `mask` is in the set. -/
def has (b : TyBounds) (mask : BitVec 16) : Bool := b.bits &&& mask != 0

def hasOrd (b : TyBounds) : Bool := b.has ORD
def hasEq (b : TyBounds) : Bool := b.has EQ
def hasShow (b : TyBounds) : Bool := b.has SHOW
def hasHofKernelResult (b : TyBounds) : Bool := b.has HOF_KERNEL_RESULT
def hasAppend (b : TyBounds) : Bool := b.has APPEND
def hasInterpolable (b : TyBounds) : Bool := b.has INTERPOLABLE
def hasComparableKey (b : TyBounds) : Bool := b.has (SET_ELEM ||| DICT_KEY)
def hasNumber (b : TyBounds) : Bool := b.has (ADD ||| SUB ||| MUL)

/-- What a merged variable owes. -/
def union (b c : TyBounds) : TyBounds := ⟨b.bits ||| c.bits⟩

/-- A merged variable owes what either side owed. -/
theorem has_union (b c : TyBounds) (mask : BitVec 16) :
    (b.union c).has mask = (b.has mask || c.has mask) := by
  have h : (b.bits ||| c.bits) &&& mask = 0 ↔ b.bits &&& mask = 0 ∧ c.bits &&& mask = 0 := by
    rw [BitVec.and_or_distrib_right]
    exact BitVec.or_eq_zero_iff
  rw [Bool.eq_iff_iff]
  simp only [has, union, bne_iff_ne, Bool.or_eq_true, ne_eq, h]
  tauto

end TyBounds

/-! ### Solver descriptors -/

/-- A concrete structure over union-find variables. -/
inductive FlatType
  | fn (arg result : VarId)
  | con (home : List Symbol) (name : Symbol) (args : List VarId)
  | unit
  | tuple (elems : List VarId)
  | record (fields : SortedMap Symbol VarId) (ext : VarId)
  | emptyRecord
  deriving DecidableEq

/-- What a union-find variable resolves to. -/
inductive Content
  | flex
  | rigid
  | super (rigid : Bool) (bounds : TyBounds)
  | struct (flat : FlatType)
  deriving DecidableEq

/-- The variables directly below a structure, the extension of a record included. -/
def FlatType.children : FlatType → List VarId
  | .fn a r => [a, r]
  | .con _ _ args => args
  | .unit => []
  | .tuple elems => elems
  | .record fields ext => fields.values ++ [ext]
  | .emptyRecord => []

/-- The variables directly below a descriptor. -/
def Content.children : Content → List VarId
  | .struct flat => flat.children
  | _ => []

/-- Whether a descriptor is a concrete structure. -/
def Content.isStructure : Content → Bool
  | .struct _ => true
  | _ => false

end IpeLang.Types
