import IpeLang.Types.Unify

/-!
# Types that can be compared

`concrete_super_ok` of `types/src/lib.rs`, the check of a resolved type against what is owed of it, with the
set of enums whose definitions hold functions.

* `fn_embedding_enums`, `ty_is_equatable`, `concrete_super_ok`: the check;
* `Value`, `HasTy`: values, and the types that they have;
* `Populated`, `Part`, `Exposed`: which types have values, what these consist of, and types with functions among
  their values;
* `Arrow`, `Found`: which enums the set of the check holds, and whether it holds all that lead to a function;
* `concrete_super_ok_sound_iff`: which types the check lets through with a function in a value.
-/

namespace IpeLang.Types.Equatable

open IpeLang.Types

/-! ### Definitions of unions -/

/-- A canonical type. -/
inductive CanonTy
  | lambda (arg result : CanonTy)
  | var (name : Symbol)
  | con (home : List Symbol) (name : Symbol) (args : List CanonTy)
  | unit
  | tuple (elems : List CanonTy)
  | record (fields : List (Symbol × CanonTy))
  | recordOpen (row : Symbol) (fields : List (Symbol × CanonTy))

structure Ctor where
  name : Symbol
  args : List CanonTy

structure Union where
  home : List Symbol
  name : Symbol
  vars : List Symbol
  ctors : List Ctor

mutual

/-- Whether an arrow occurs in a type. -/
def canon_type_embeds_lambda : CanonTy → Bool
  | .lambda _ _ => true
  | .var _ => false
  | .unit => false
  | .tuple elems => anyEmbedsLambda elems
  | .con _ _ args => anyEmbedsLambda args
  | .record fields => anyFieldEmbedsLambda fields
  | .recordOpen _ fields => anyFieldEmbedsLambda fields

def anyEmbedsLambda : List CanonTy → Bool
  | [] => false
  | t :: ts => canon_type_embeds_lambda t || anyEmbedsLambda ts

def anyFieldEmbedsLambda : List (Symbol × CanonTy) → Bool
  | [] => false
  | (_, t) :: fields => canon_type_embeds_lambda t || anyFieldEmbedsLambda fields

end

/-- The enums with an arrow in a payload. -/
def fn_embedding_enums (module_unions dep_unions : List Union) : List (List Symbol × Symbol) :=
  ((module_unions ++ dep_unions).filter fun u => u.ctors.any fun c => c.args.any canon_type_embeds_lambda).map
    fun u => (u.home, u.name)

/-- An arrow occurs in a type. -/
inductive Arrow : CanonTy → Prop
  | lambda (arg result : CanonTy) : Arrow (.lambda arg result)
  | con {home : List Symbol} {name : Symbol} {args : List CanonTy} {t : CanonTy} (ht : t ∈ args) (h : Arrow t) :
      Arrow (.con home name args)
  | tuple {elems : List CanonTy} {t : CanonTy} (ht : t ∈ elems) (h : Arrow t) : Arrow (.tuple elems)
  | record {fields : List (Symbol × CanonTy)} {f : Symbol × CanonTy} (hf : f ∈ fields) (h : Arrow f.2) :
      Arrow (.record fields)
  | recordOpen {row : Symbol} {fields : List (Symbol × CanonTy)} {f : Symbol × CanonTy} (hf : f ∈ fields)
      (h : Arrow f.2) : Arrow (.recordOpen row fields)

/-- An enum has an arrow in a payload of its own. -/
def HoldsArrow (unions : List Union) (home : List Symbol) (name : Symbol) : Prop :=
  ∃ u ∈ unions, u.home = home ∧ u.name = name ∧ ∃ c ∈ u.ctors, ∃ t ∈ c.args, Arrow t

mutual

theorem canon_type_embeds_lambda_iff (t : CanonTy) : canon_type_embeds_lambda t = true ↔ Arrow t := by
  cases t with
  | lambda arg result => exact iff_of_true rfl (.lambda arg result)
  | var name => exact iff_of_false Bool.false_ne_true nofun
  | unit => exact iff_of_false Bool.false_ne_true nofun
  | con home name args =>
    refine (anyEmbedsLambda_iff args).trans ⟨fun ⟨t, ht, h⟩ => .con ht h, ?_⟩
    rintro (_ | ⟨ht, h⟩)
    exact ⟨_, ht, h⟩
  | tuple elems =>
    refine (anyEmbedsLambda_iff elems).trans ⟨fun ⟨t, ht, h⟩ => .tuple ht h, ?_⟩
    rintro (_ | _ | ⟨ht, h⟩)
    exact ⟨_, ht, h⟩
  | record fields =>
    refine (anyFieldEmbedsLambda_iff fields).trans ⟨fun ⟨f, hf, h⟩ => .record hf h, ?_⟩
    rintro (_ | _ | _ | ⟨hf, h⟩)
    exact ⟨_, hf, h⟩
  | recordOpen row fields =>
    refine (anyFieldEmbedsLambda_iff fields).trans ⟨fun ⟨f, hf, h⟩ => .recordOpen hf h, ?_⟩
    rintro (_ | _ | _ | _ | ⟨hf, h⟩)
    exact ⟨_, hf, h⟩

theorem anyEmbedsLambda_iff : ∀ ts : List CanonTy, anyEmbedsLambda ts = true ↔ ∃ t ∈ ts, Arrow t
  | [] => by simp [anyEmbedsLambda]
  | t :: ts => by
    rw [anyEmbedsLambda, Bool.or_eq_true, canon_type_embeds_lambda_iff t, anyEmbedsLambda_iff ts,
      List.exists_mem_cons_iff]

theorem anyFieldEmbedsLambda_iff : ∀ fields : List (Symbol × CanonTy),
    anyFieldEmbedsLambda fields = true ↔ ∃ f ∈ fields, Arrow f.2
  | [] => by simp [anyFieldEmbedsLambda]
  | (k, t) :: fields => by
    rw [anyFieldEmbedsLambda, Bool.or_eq_true, canon_type_embeds_lambda_iff t, anyFieldEmbedsLambda_iff fields,
      List.exists_mem_cons_iff]

end

/-- The set holds the enums with an arrow in a payload of their own, and no other one. -/
theorem mem_fn_embedding_enums_iff {module_unions dep_unions : List Union} {home : List Symbol} {name : Symbol} :
    (home, name) ∈ fn_embedding_enums module_unions dep_unions ↔
      HoldsArrow (module_unions ++ dep_unions) home name := by
  unfold fn_embedding_enums HoldsArrow
  simp only [List.mem_map, List.mem_filter, List.any_eq_true, canon_type_embeds_lambda_iff, Prod.mk.injEq]
  exact ⟨fun ⟨u, ⟨hu, h⟩, hhome, hname⟩ => ⟨u, hu, hhome, hname, h⟩,
    fun ⟨u, hu, hhome, hname, h⟩ => ⟨u, ⟨hu, h⟩, hhome, hname⟩⟩

/-! ### The check -/

mutual

def ty_is_equatable (enum_embeds_fn : List Symbol → Symbol → Bool) : Ty → Bool
  | .var _ => false
  | .fn _ _ => false
  | .unit => true
  | .tuple elems => allEquatable enum_embeds_fn elems
  | .record fields _ => allFieldsEquatable enum_embeds_fn fields
  | .con home name args => !enum_embeds_fn home name && allEquatable enum_embeds_fn args

def allEquatable (enum_embeds_fn : List Symbol → Symbol → Bool) : List Ty → Bool
  | [] => true
  | t :: ts => ty_is_equatable enum_embeds_fn t && allEquatable enum_embeds_fn ts

def allFieldsEquatable (enum_embeds_fn : List Symbol → Symbol → Bool) : List (Symbol × Ty) → Bool
  | [] => true
  | (_, t) :: fields => ty_is_equatable enum_embeds_fn t && allFieldsEquatable enum_embeds_fn fields

end

/-- Where a bound is checked. -/
inductive BoundSite
  | EmittedGeneric
  | ConcretePin

def ORD_COPY : List String := ["Int", "Float", "Char", "Bool"]

def SQL_PARAM : List String := ["Int", "Float", "String", "Bool", "SqlValue"]

def INTERPOLABLE : List String := ["String", "Int", "Float", "Bool", "Char"]

def hasSqlParam (bounds : TyBounds) : Bool := bounds.has TyBounds.SQL_PARAM

def barePrim (ι : Interner) : Ty → Option String
  | .con home name args => if home.isEmpty && args.isEmpty then ι.resolve name else none
  | _ => none

def isListOf (ι : Interner) : Ty → Bool
  | .con home name args => home.isEmpty && args.length == 1 && ι.resolve name == some "List"
  | _ => false

/-- The result of a callback is no function, and no type variable that could be one. -/
def notCurried : Ty → Bool
  | .fn _ _ => false
  | .var _ => false
  | _ => true

def super_bounds_satisfied (ι : Interner) (bounds : TyBounds) (ty : Ty) (site : BoundSite)
    (enum_embeds_fn : List Symbol → Symbol → Bool) : Bool :=
  let prim := barePrim ι ty
  let ord_table := match site with
    | .EmittedGeneric => ORD_COPY
    | .ConcretePin => ORD_BORROW
  (!bounds.hasNumber || primSatisfies NUMBER prim) &&
    (!bounds.hasOrd || primSatisfies ord_table prim) &&
    (!bounds.hasEq || ty_is_equatable enum_embeds_fn ty) &&
    (!bounds.hasComparableKey || primSatisfies COMPARABLE_KEY prim) &&
    (!bounds.hasShow || ty_is_equatable enum_embeds_fn ty) &&
    (!bounds.hasAppend || (primSatisfies APPEND_PRIM prim || isListOf ι ty)) &&
    (!bounds.hasHofKernelResult || notCurried ty) &&
    (!hasSqlParam bounds || primSatisfies SQL_PARAM prim) &&
    (!bounds.hasInterpolable || primSatisfies INTERPOLABLE prim)

def concrete_super_ok (ι : Interner) (bounds : TyBounds) (ty : Ty) (enum_embeds_fn : List Symbol → Symbol → Bool) :
    Bool :=
  super_bounds_satisfied ι bounds ty .ConcretePin enum_embeds_fn

/-- The oracle that inference uses. -/
def enumOracle (module_unions dep_unions : List Union) (home : List Symbol) (name : Symbol) : Bool :=
  (fn_embedding_enums module_unions dep_unions).contains (home, name)

/-! ### Values -/

/-- A value: a value of a built-in type is taken as the values of its arguments that it holds. -/
inductive Value
  | fn
  | unit
  | tuple (elems : List Value)
  | record (fields : List (Symbol × Value))
  | ctor (name : Symbol) (args : List Value)
  | builtin (parts : List Value)

mutual

/-- A function occurs in a value. -/
def Value.HoldsFn : Value → Prop
  | .fn => True
  | .unit => False
  | .tuple elems => AnyHoldsFn elems
  | .record fields => AnyFieldHoldsFn fields
  | .ctor _ args => AnyHoldsFn args
  | .builtin parts => AnyHoldsFn parts

def AnyHoldsFn : List Value → Prop
  | [] => False
  | v :: vs => v.HoldsFn ∨ AnyHoldsFn vs

def AnyFieldHoldsFn : List (Symbol × Value) → Prop
  | [] => False
  | (_, v) :: fields => v.HoldsFn ∨ AnyFieldHoldsFn fields

end

/-- The type that a variable of a union stands for. -/
def lookupVar (vars : List Symbol) (args : List Ty) (name : Symbol) : Ty :=
  ((vars.zip args).lookup name).getD (.var name)

mutual

/-- A payload of a union at its arguments. -/
def CanonTy.toTy (env : Symbol → Ty) : CanonTy → Ty
  | .lambda a r => .fn (a.toTy env) (r.toTy env)
  | .var name => env name
  | .con home name args => .con home name (toTys env args)
  | .unit => .unit
  | .tuple elems => .tuple (toTys env elems)
  | .record fields => .record (toFields env fields) .closed
  | .recordOpen row fields => .record (toFields env fields) (.opened row)

def toTys (env : Symbol → Ty) : List CanonTy → List Ty
  | [] => []
  | t :: ts => t.toTy env :: toTys env ts

def toFields (env : Symbol → Ty) : List (Symbol × CanonTy) → List (Symbol × Ty)
  | [] => []
  | (k, t) :: fields => (k, t.toTy env) :: toFields env fields

end

/-- The payloads of a constructor of an enum. -/
def Payloads (unions : List Union) (home : List Symbol) (name : Symbol) (args : List Ty) (ctor : Symbol)
    (payloads : List Ty) : Prop :=
  ∃ u ∈ unions, u.home = home ∧ u.name = name ∧
    ∃ c ∈ u.ctors, c.name = ctor ∧ payloads = toTys (lookupVar u.vars args) c.args

/-- An enum of the program. -/
def Defined (unions : List Union) (home : List Symbol) (name : Symbol) : Prop :=
  ∃ u ∈ unions, u.home = home ∧ u.name = name

mutual

/-- A value has a type. A variable stands for any type, and an open row for any further fields. -/
def HasTy (unions : List Union) : Value → Ty → Prop
  | _, .var _ => True
  | .fn, .fn _ _ => True
  | .unit, .unit => True
  | .tuple vs, .tuple ts => AllHaveTy unions vs ts
  | .record vs, .record ts tail => FieldsHaveTy unions (tail ≠ .closed) vs ts
  | .ctor ctor vs, .con home name args => ∃ ts, Payloads unions home name args ctor ts ∧ AllHaveTy unions vs ts
  | .builtin vs, .con home name args => ¬ Defined unions home name ∧ EachHasTy unions vs args
  | _, _ => False

def AllHaveTy (unions : List Union) : List Value → List Ty → Prop
  | [], [] => True
  | v :: vs, t :: ts => HasTy unions v t ∧ AllHaveTy unions vs ts
  | _, _ => False

/-- The fields of a record, and further ones where the row is open. -/
def FieldsHaveTy (unions : List Union) (opened : Prop) : List (Symbol × Value) → List (Symbol × Ty) → Prop
  | [], [] => True
  | _ :: _, [] => opened
  | (k, v) :: vs, (k', t) :: ts => k = k' ∧ HasTy unions v t ∧ FieldsHaveTy unions opened vs ts
  | _, _ => False

/-- Each of some values has one of the types. -/
def EachHasTy (unions : List Union) : List Value → List Ty → Prop
  | [], _ => True
  | v :: vs, ts => (∃ t ∈ ts, HasTy unions v t) ∧ EachHasTy unions vs ts

end

/-! ### What values consist of -/

section Parts

variable (unions : List Union)

/-- A type has values. A built-in type has one that holds nothing. -/
inductive Populated : Ty → Prop
  | var (raw : ℕ) : Populated (.var raw)
  | fn (a r : Ty) : Populated (.fn a r)
  | unit : Populated .unit
  | tuple {ts : List Ty} (h : ∀ t ∈ ts, Populated t) : Populated (.tuple ts)
  | record {fields : List (Symbol × Ty)} {tail : RowTail} (h : ∀ f ∈ fields, Populated f.2) :
      Populated (.record fields tail)
  | builtin {home : List Symbol} {name : Symbol} {args : List Ty} (hdef : ¬ Defined unions home name) :
      Populated (.con home name args)
  | enum {home : List Symbol} {name ctor : Symbol} {args ts : List Ty}
      (hts : Payloads unions home name args ctor ts) (h : ∀ t ∈ ts, Populated t) : Populated (.con home name args)

/-- Some value of the first type has a value of the second one in it, as the type shows. -/
inductive Visible : Ty → Ty → Prop
  | element {ts : List Ty} {t : Ty} (ht : t ∈ ts) (h : ∀ t' ∈ ts, Populated unions t') : Visible (.tuple ts) t
  | field {fields : List (Symbol × Ty)} {tail : RowTail} {f : Symbol × Ty} (hf : f ∈ fields)
      (h : ∀ f' ∈ fields, Populated unions f'.2) : Visible (.record fields tail) f.2
  | arg {home : List Symbol} {name : Symbol} {args : List Ty} {t : Ty} (hdef : ¬ Defined unions home name)
      (ht : t ∈ args) : Visible (.con home name args) t

/-- Some value of an enum has a value of the type in a payload. -/
inductive Hidden : Ty → Ty → Prop
  | payload {home : List Symbol} {name ctor : Symbol} {args ts : List Ty} {t : Ty}
      (hts : Payloads unions home name args ctor ts) (ht : t ∈ ts) (h : ∀ t' ∈ ts, Populated unions t') :
      Hidden (.con home name args) t

def Part (t t' : Ty) : Prop := Visible unions t t' ∨ Hidden unions t t'

/-- A record with values whose row is open. -/
def OpenRow (t : Ty) : Prop := ∃ fields raw, t = .record fields (.opened raw) ∧ ∀ f ∈ fields, Populated unions f.2

/-- Types with functions among their values, whatever the enums are. -/
inductive Exposed : Ty → Prop
  | fn (a r : Ty) : Exposed (.fn a r)
  | var (raw : ℕ) : Exposed (.var raw)
  | opened {t : Ty} (h : OpenRow unions t) : Exposed t

/-- A function type can be reached through parts. -/
def ReachesFn (t : Ty) : Prop := ∃ s, Relation.ReflTransGen (Part unions) t s ∧ Exposed unions s

variable {unions}

theorem ReachesFn.of_part {t t' : Ty} (h : Part unions t t') (h' : ReachesFn unions t') : ReachesFn unions t := by
  obtain ⟨s, hreach, hs⟩ := h'
  exact ⟨s, Relation.ReflTransGen.head h hreach, hs⟩

mutual

theorem populated_of_hasTy (v : Value) (t : Ty) (h : HasTy unions v t) : Populated unions t := by
  cases t with
  | var raw => exact .var raw
  | fn a r => exact .fn a r
  | unit => exact .unit
  | tuple ts =>
    cases v with
    | tuple vs => exact .tuple (populated_of_allHaveTy vs ts h)
    | _ => exact h.elim
  | record ts tail =>
    cases v with
    | record vs => exact .record (populated_of_fieldsHaveTy vs ts h)
    | _ => exact h.elim
  | con home name args =>
    cases v with
    | ctor ctor vs =>
      obtain ⟨ts, hts, hall⟩ := h
      exact .enum hts (populated_of_allHaveTy vs ts hall)
    | builtin vs => exact .builtin h.1
    | _ => exact h.elim

theorem populated_of_allHaveTy : ∀ (vs : List Value) (ts : List Ty), AllHaveTy unions vs ts →
    ∀ t ∈ ts, Populated unions t
  | [], [] => fun _ t ht => by cases ht
  | v :: vs, t :: ts => fun h =>
    List.forall_mem_cons.2 ⟨populated_of_hasTy v t h.1, populated_of_allHaveTy vs ts h.2⟩
  | [], _ :: _ => fun h => h.elim
  | _ :: _, [] => fun h => h.elim

theorem populated_of_fieldsHaveTy {opened : Prop} : ∀ (vs : List (Symbol × Value)) (ts : List (Symbol × Ty)),
    FieldsHaveTy unions opened vs ts → ∀ f ∈ ts, Populated unions f.2
  | _, [] => fun _ f hf => by cases hf
  | (_, v) :: vs, (_, t) :: ts => fun h =>
    List.forall_mem_cons.2 ⟨populated_of_hasTy v t h.2.1, populated_of_fieldsHaveTy vs ts h.2.2⟩
  | [], _ :: _ => fun h => h.elim

end

theorem exists_allHaveTy {ts : List Ty} (hall : ∀ t ∈ ts, ∃ v, HasTy unions v t) : ∃ vs, AllHaveTy unions vs ts := by
  induction ts with
  | nil => exact ⟨[], trivial⟩
  | cons t ts ih =>
    obtain ⟨⟨v, hv⟩, hrest⟩ := List.forall_mem_cons.1 hall
    obtain ⟨vs, hvs⟩ := ih hrest
    exact ⟨v :: vs, hv, hvs⟩

theorem exists_fieldsHaveTy {opened : Prop} {fields : List (Symbol × Ty)}
    (hall : ∀ f ∈ fields, ∃ v, HasTy unions v f.2) : ∃ vs, FieldsHaveTy unions opened vs fields := by
  induction fields with
  | nil => exact ⟨[], trivial⟩
  | cons f fields ih =>
    obtain ⟨⟨v, hv⟩, hrest⟩ := List.forall_mem_cons.1 hall
    obtain ⟨vs, hvs⟩ := ih hrest
    exact ⟨(f.1, v) :: vs, rfl, hv, hvs⟩

/-- The definitions say which types have values. -/
theorem populated_iff (t : Ty) : Populated unions t ↔ ∃ v, HasTy unions v t := by
  refine ⟨fun h => ?_, fun ⟨v, hv⟩ => populated_of_hasTy v t hv⟩
  induction h with
  | var raw => exact ⟨.fn, trivial⟩
  | fn a r => exact ⟨.fn, trivial⟩
  | unit => exact ⟨.unit, trivial⟩
  | tuple _ ih =>
    obtain ⟨vs, hvs⟩ := exists_allHaveTy ih
    exact ⟨.tuple vs, hvs⟩
  | record _ ih =>
    obtain ⟨vs, hvs⟩ := exists_fieldsHaveTy ih
    exact ⟨.record vs, hvs⟩
  | builtin hdef => exact ⟨.builtin [], hdef, trivial⟩
  | enum hts _ ih =>
    obtain ⟨vs, hvs⟩ := exists_allHaveTy ih
    exact ⟨.ctor _ vs, _, hts, hvs⟩

/-! A function in a value shows in the parts of its type. -/

mutual

theorem reachesFn_of_holdsFn (v : Value) (t : Ty) (h : HasTy unions v t) (hfn : v.HoldsFn) : ReachesFn unions t := by
  cases t with
  | var raw => exact ⟨_, Relation.ReflTransGen.refl, Exposed.var raw⟩
  | fn a r => exact ⟨_, Relation.ReflTransGen.refl, Exposed.fn a r⟩
  | unit =>
    cases v with
    | unit => exact hfn.elim
    | _ => exact h.elim
  | tuple ts =>
    cases v with
    | tuple vs =>
      obtain ⟨t, ht, hreach⟩ := reachesFn_of_anyHoldsFn vs ts h hfn
      exact hreach.of_part (Or.inl (Visible.element ht (populated_of_allHaveTy vs ts h)))
    | _ => exact h.elim
  | record ts tail =>
    cases v with
    | record vs =>
      have hpopulated := populated_of_fieldsHaveTy vs ts h
      rcases reachesFn_of_anyFieldHoldsFn vs ts h hfn with htail | ⟨f, hf, hreach⟩
      · cases tail with
        | closed => exact absurd rfl htail
        | opened raw => exact ⟨_, Relation.ReflTransGen.refl, Exposed.opened ⟨_, raw, rfl, hpopulated⟩⟩
      · exact hreach.of_part (Or.inl (Visible.field hf hpopulated))
    | _ => exact h.elim
  | con home name args =>
    cases v with
    -- The payloads stand behind the name of the type, and the arguments of a built-in type in the type.
    | ctor ctor vs =>
      obtain ⟨ts, hts, hall⟩ := h
      obtain ⟨t, ht, hreach⟩ := reachesFn_of_anyHoldsFn vs ts hall hfn
      exact hreach.of_part (Or.inr (Hidden.payload hts ht (populated_of_allHaveTy vs ts hall)))
    | builtin vs =>
      obtain ⟨t, ht, hreach⟩ := reachesFn_of_eachHasTy vs args h.2 hfn
      exact hreach.of_part (Or.inl (Visible.arg h.1 ht))
    | _ => exact h.elim

theorem reachesFn_of_anyHoldsFn : ∀ (vs : List Value) (ts : List Ty), AllHaveTy unions vs ts → AnyHoldsFn vs →
    ∃ t ∈ ts, ReachesFn unions t
  | v :: vs, t :: ts => fun h hfn => by
    rcases hfn with hfn | hfn
    · exact ⟨t, List.mem_cons_self, reachesFn_of_holdsFn v t h.1 hfn⟩
    · obtain ⟨t', ht', hreach⟩ := reachesFn_of_anyHoldsFn vs ts h.2 hfn
      exact ⟨t', List.mem_cons_of_mem t ht', hreach⟩
  | _ :: _, [] => fun h _ => h.elim
  | [], _ => fun _ hfn => hfn.elim

theorem reachesFn_of_anyFieldHoldsFn {opened : Prop} : ∀ (vs : List (Symbol × Value)) (ts : List (Symbol × Ty)),
    FieldsHaveTy unions opened vs ts → AnyFieldHoldsFn vs → opened ∨ ∃ f ∈ ts, ReachesFn unions f.2
  | (_, v) :: vs, f :: ts => fun h hfn => by
    rcases hfn with hfn | hfn
    · exact Or.inr ⟨f, List.mem_cons_self, reachesFn_of_holdsFn v f.2 h.2.1 hfn⟩
    · rcases reachesFn_of_anyFieldHoldsFn vs ts h.2.2 hfn with hopened | ⟨f', hf', hreach⟩
      · exact Or.inl hopened
      · exact Or.inr ⟨f', List.mem_cons_of_mem f hf', hreach⟩
  | _ :: _, [] => fun h _ => Or.inl h
  | [], _ => fun _ hfn => hfn.elim

theorem reachesFn_of_eachHasTy : ∀ (vs : List Value) (ts : List Ty), EachHasTy unions vs ts → AnyHoldsFn vs →
    ∃ t ∈ ts, ReachesFn unions t
  | v :: vs, ts => fun h hfn => by
    rcases hfn with hfn | hfn
    · obtain ⟨t, ht, hv⟩ := h.1
      exact ⟨t, ht, reachesFn_of_holdsFn v t hv hfn⟩
    · exact reachesFn_of_eachHasTy vs ts h.2 hfn
  | [], _ => fun _ hfn => hfn.elim

end

/-! A value with a function can be built around a part with one. -/

theorem exists_allHaveTy_holdsFn {ts : List Ty} (hall : ∀ t ∈ ts, Populated unions t) {t : Ty} (ht : t ∈ ts)
    {v : Value} (hv : HasTy unions v t) (hfn : v.HoldsFn) : ∃ vs, AllHaveTy unions vs ts ∧ AnyHoldsFn vs := by
  induction ts with
  | nil => cases ht
  | cons t' ts ih =>
    obtain ⟨h', hrest⟩ := List.forall_mem_cons.1 hall
    rcases List.mem_cons.1 ht with rfl | ht
    · obtain ⟨vs, hvs⟩ := exists_allHaveTy fun t ht => (populated_iff t).1 (hrest t ht)
      exact ⟨v :: vs, ⟨hv, hvs⟩, Or.inl hfn⟩
    · obtain ⟨v', hv'⟩ := (populated_iff t').1 h'
      obtain ⟨vs, hvs, hany⟩ := ih hrest ht
      exact ⟨v' :: vs, ⟨hv', hvs⟩, Or.inr hany⟩

theorem exists_fieldsHaveTy_holdsFn {opened : Prop} {fields : List (Symbol × Ty)}
    (hall : ∀ f ∈ fields, Populated unions f.2) {f : Symbol × Ty} (hf : f ∈ fields) {v : Value}
    (hv : HasTy unions v f.2) (hfn : v.HoldsFn) : ∃ vs, FieldsHaveTy unions opened vs fields ∧ AnyFieldHoldsFn vs := by
  induction fields with
  | nil => cases hf
  | cons f' fields ih =>
    obtain ⟨h', hrest⟩ := List.forall_mem_cons.1 hall
    rcases List.mem_cons.1 hf with rfl | hf
    · obtain ⟨vs, hvs⟩ : ∃ vs, FieldsHaveTy unions opened vs fields :=
        exists_fieldsHaveTy fun f hf => (populated_iff f.2).1 (hrest f hf)
      exact ⟨(f.1, v) :: vs, ⟨rfl, hv, hvs⟩, Or.inl hfn⟩
    · obtain ⟨v', hv'⟩ := (populated_iff f'.2).1 h'
      obtain ⟨vs, hvs, hany⟩ := ih hrest hf
      exact ⟨(f'.1, v') :: vs, ⟨rfl, hv', hvs⟩, Or.inr hany⟩

theorem exists_openField {opened : Prop} (hopened : opened) {fields : List (Symbol × Ty)}
    (hall : ∀ f ∈ fields, Populated unions f.2) : ∃ vs, FieldsHaveTy unions opened vs fields ∧ AnyFieldHoldsFn vs := by
  induction fields with
  | nil => exact ⟨[(0, .fn)], hopened, Or.inl trivial⟩
  | cons f fields ih =>
    obtain ⟨h, hrest⟩ := List.forall_mem_cons.1 hall
    obtain ⟨v, hv⟩ := (populated_iff f.2).1 h
    obtain ⟨vs, hvs, hany⟩ := ih hrest
    exact ⟨(f.1, v) :: vs, ⟨rfl, hv, hvs⟩, Or.inr hany⟩

theorem Exposed.exists_holdsFn {t : Ty} (h : Exposed unions t) : ∃ v, HasTy unions v t ∧ v.HoldsFn := by
  cases h with
  | fn a r => exact ⟨.fn, trivial, trivial⟩
  | var raw => exact ⟨.fn, trivial, trivial⟩
  | opened h =>
    obtain ⟨fields, raw, rfl, hall⟩ := h
    have htail : RowTail.opened raw ≠ .closed := by simp
    obtain ⟨vs, hvs, hany⟩ := exists_openField htail hall
    exact ⟨.record vs, hvs, hany⟩

theorem Part.exists_holdsFn {t t' : Ty} (h : Part unions t t') {v : Value} (hv : HasTy unions v t')
    (hfn : v.HoldsFn) : ∃ w, HasTy unions w t ∧ w.HoldsFn := by
  rcases h with h | h
  · cases h with
    | element ht hall =>
      obtain ⟨vs, hvs, hany⟩ := exists_allHaveTy_holdsFn hall ht hv hfn
      exact ⟨.tuple vs, hvs, hany⟩
    | field hf hall =>
      obtain ⟨vs, hvs, hany⟩ := exists_fieldsHaveTy_holdsFn hall hf hv hfn
      exact ⟨.record vs, hvs, hany⟩
    | arg hdef ht => exact ⟨.builtin [v], ⟨hdef, ⟨_, ht, hv⟩, trivial⟩, Or.inl hfn⟩
  · cases h with
    | payload hts ht hall =>
      obtain ⟨vs, hvs, hany⟩ := exists_allHaveTy_holdsFn hall ht hv hfn
      exact ⟨.ctor _ vs, ⟨_, hts, hvs⟩, hany⟩

/-- A type has a value with a function if, and only if, a function type is reached through its parts. -/
theorem exists_holdsFn_iff (t : Ty) : (∃ v, HasTy unions v t ∧ v.HoldsFn) ↔ ReachesFn unions t := by
  constructor
  · rintro ⟨v, hv, hfn⟩
    exact reachesFn_of_holdsFn v t hv hfn
  · rintro ⟨s, hreach, hs⟩
    induction hreach using Relation.ReflTransGen.head_induction_on with
    | refl => exact hs.exists_holdsFn
    | head hpart _ ih =>
      obtain ⟨v, hv, hfn⟩ := ih
      exact hpart.exists_holdsFn hv hfn

/-! ### What the check sees -/

variable (unions) in
/-- The set of enums has all that it should have of what a type shows: rows are closed, and an enum with a
payload that leads to a function has an arrow in a payload of its own. -/
structure Found (ty : Ty) : Prop where
  rows : ∀ t, Relation.ReflTransGen (Visible unions) ty t → ¬ OpenRow unions t
  enums : ∀ home name args t, Relation.ReflTransGen (Visible unions) ty (.con home name args) →
    Hidden unions (.con home name args) t → ReachesFn unions t → HoldsArrow unions home name

theorem allEquatable_iff (oracle : List Symbol → Symbol → Bool) (ts : List Ty) :
    allEquatable oracle ts = true ↔ ∀ t ∈ ts, ty_is_equatable oracle t = true := by
  induction ts with
  | nil => simp [allEquatable]
  | cons t ts ih => rw [allEquatable, Bool.and_eq_true, ih, List.forall_mem_cons]

theorem allFieldsEquatable_iff (oracle : List Symbol → Symbol → Bool) (fields : List (Symbol × Ty)) :
    allFieldsEquatable oracle fields = true ↔ ∀ f ∈ fields, ty_is_equatable oracle f.2 = true := by
  induction fields with
  | nil => simp [allFieldsEquatable]
  | cons f fields ih => rw [allFieldsEquatable, Bool.and_eq_true, ih, List.forall_mem_cons]

/-- The check goes through all that a type shows. -/
theorem Visible.equatable {oracle : List Symbol → Symbol → Bool} {t t' : Ty} (h : Visible unions t t')
    (ht : ty_is_equatable oracle t = true) : ty_is_equatable oracle t' = true := by
  cases h with
  | element hmem _ => exact (allEquatable_iff oracle _).1 ht _ hmem
  | field hmem _ => exact (allFieldsEquatable_iff oracle _).1 ht _ hmem
  | arg _ hmem => exact (allEquatable_iff oracle _).1 (Bool.and_eq_true_iff.1 ht).2 _ hmem

theorem equatable_of_visible {oracle : List Symbol → Symbol → Bool} {ty t : Ty}
    (h : Relation.ReflTransGen (Visible unions) ty t) (hty : ty_is_equatable oracle ty = true) :
    ty_is_equatable oracle t = true := by
  induction h with
  | refl => exact hty
  | tail _ hpart ih => exact hpart.equatable ih

/-- A type that passes the check leads to a function only where the check does not look. -/
theorem not_reachesFn_of_equatable {oracle : List Symbol → Symbol → Bool} {ty : Ty}
    (h : ty_is_equatable oracle ty = true)
    (hrows : ∀ t, Relation.ReflTransGen (Visible unions) ty t → ¬ OpenRow unions t)
    (hhidden : ∀ t t', Relation.ReflTransGen (Visible unions) ty t → Hidden unions t t' → ¬ ReachesFn unions t') :
    ¬ ReachesFn unions ty := by
  rintro ⟨s, hreach, hs⟩
  induction hreach using Relation.ReflTransGen.head_induction_on with
  | refl =>
    cases hs with
    | fn a r => cases h
    | var raw => cases h
    | opened hrow => exact hrows s Relation.ReflTransGen.refl hrow
  | head hpart htail ih =>
    rename_i t t'
    rcases hpart with hvisible | hpayload
    · exact ih (hvisible.equatable h) (fun u hu => hrows u (Relation.ReflTransGen.head hvisible hu))
        fun u u' hu => hhidden u u' (Relation.ReflTransGen.head hvisible hu)
    · exact hhidden t t' Relation.ReflTransGen.refl hpayload ⟨s, htail, hs⟩

end Parts

theorem ty_is_equatable_of_concrete_super_ok {ι : Interner} {bounds : TyBounds} {ty : Ty}
    {oracle : List Symbol → Symbol → Bool} (hbounds : bounds.hasEq = true ∨ bounds.hasShow = true)
    (h : concrete_super_ok ι bounds ty oracle = true) : ty_is_equatable oracle ty = true := by
  unfold concrete_super_ok super_bounds_satisfied at h
  simp only [Bool.and_eq_true, Bool.or_eq_true, Bool.not_eq_true'] at h
  rcases hbounds with heq | hshow
  · rcases h.1.1.1.1.1.1.2 with hno | hok
    · rw [heq] at hno
      cases hno
    · exact hok
  · rcases h.1.1.1.1.2 with hno | hok
    · rw [hshow] at hno
      cases hno
    · exact hok

theorem not_holdsArrow_of_equatable {module_unions dep_unions : List Union} {home : List Symbol} {name : Symbol}
    {args : List Ty} (h : ty_is_equatable (enumOracle module_unions dep_unions) (.con home name args) = true) :
    ¬ HoldsArrow (module_unions ++ dep_unions) home name := by
  intro harrow
  have horacle : enumOracle module_unions dep_unions home name = true :=
    List.contains_iff_mem.2 (mem_fn_embedding_enums_iff.2 harrow)
  rw [ty_is_equatable, horacle] at h
  cases h

/-- A type that passes the check leads to no function if, and only if, the set of enums has all that it should
have. -/
theorem not_reachesFn_iff {module_unions dep_unions : List Union} {ty : Ty}
    (h : ty_is_equatable (enumOracle module_unions dep_unions) ty = true) :
    ¬ ReachesFn (module_unions ++ dep_unions) ty ↔ Found (module_unions ++ dep_unions) ty := by
  constructor
  · intro hnot
    have hlift : ∀ t, Relation.ReflTransGen (Visible (module_unions ++ dep_unions)) ty t →
        Relation.ReflTransGen (Part (module_unions ++ dep_unions)) ty t :=
      fun t ht => Relation.ReflTransGen.mono (fun _ _ h => Or.inl h) ty t ht
    refine ⟨fun t ht hrow => hnot ⟨t, hlift t ht, Exposed.opened hrow⟩, fun home name args t ht hpayload => ?_⟩
    rintro ⟨s, hreach, hs⟩
    exact absurd ⟨s, (hlift _ ht).trans (Relation.ReflTransGen.head (Or.inr hpayload) hreach), hs⟩ hnot
  · refine fun hfound => not_reachesFn_of_equatable h hfound.rows fun t t' ht hpayload hreach => ?_
    cases hpayload with
    | payload hts hmem hall =>
      exact not_holdsArrow_of_equatable (equatable_of_visible ht h)
        (hfound.enums _ _ _ _ ht (.payload hts hmem hall) hreach)

/-- A type at which comparing or showing is allowed has no value with a function if, and only if, the set of
enums has all that it should have of what the type shows. -/
theorem concrete_super_ok_sound_iff (ι : Interner) (module_unions dep_unions : List Union) (bounds : TyBounds)
    (ty : Ty) (hbounds : bounds.hasEq = true ∨ bounds.hasShow = true)
    (hok : concrete_super_ok ι bounds ty (enumOracle module_unions dep_unions) = true) :
    (∀ v, HasTy (module_unions ++ dep_unions) v ty → ¬ v.HoldsFn) ↔ Found (module_unions ++ dep_unions) ty := by
  rw [← not_reachesFn_iff (ty_is_equatable_of_concrete_super_ok hbounds hok), ← exists_holdsFn_iff]
  constructor
  · rintro h ⟨v, hv, hfn⟩
    exact h v hv hfn
  · intro h v hv hfn
    exact h ⟨v, hv, hfn⟩

/-- The names of `type Leaf = Leaf Int` and `type Tree = Empty | Node Tree Leaf`. -/
def treeNames : Interner := ⟨["Main", "Leaf", "Int", "Tree", "Empty", "Node"]⟩

def treeUnions : List Union :=
  [⟨[0], 1, [], [⟨1, [.con [] 2 []]⟩]⟩, ⟨[0], 3, [], [⟨4, []⟩, ⟨5, [.con [0] 3 [], .con [0] 1 []]⟩]⟩]

/-- What values of `( Tree, Int )` consist of. -/
def TreePart (t : Ty) : Prop :=
  t = .tuple [.con [0] 3 [], .con [] 2 []] ∨ t = .con [0] 3 [] ∨ t = .con [0] 1 [] ∨ t = .con [] 2 []

theorem treePart_of_part {t t' : Ty} (h : TreePart t) (hpart : Part treeUnions t t') : TreePart t' := by
  rcases hpart with hvisible | hhidden
  · cases hvisible with
    | element ht _ =>
      rcases h with h | h | h | h <;> cases h
      simp only [List.mem_cons, List.not_mem_nil, or_false] at ht
      rcases ht with rfl | rfl <;> simp [TreePart]
    | field hf _ => rcases h with h | h | h | h <;> cases h
    | arg _ ht => rcases h with h | h | h | h <;> cases h <;> cases ht
  · cases hhidden with
    | payload hts ht _ =>
      obtain ⟨u, hu, -, -, c, hc, -, rfl⟩ := hts
      simp only [treeUnions, List.mem_cons, List.not_mem_nil, or_false] at hu
      rcases hu with rfl | rfl <;> simp only [List.mem_cons, List.not_mem_nil, or_false] at hc
      · subst hc
        simp only [toTys, CanonTy.toTy, List.mem_cons, List.not_mem_nil, or_false] at ht
        simp [TreePart, ht]
      · rcases hc with rfl | rfl
        · cases ht
        · simp only [toTys, CanonTy.toTy, List.mem_cons, List.not_mem_nil, or_false] at ht
          rcases ht with rfl | rfl <;> simp [TreePart]

theorem not_reachesFn_tree {t : Ty} (h : TreePart t) : ¬ ReachesFn treeUnions t := by
  rintro ⟨s, hreach, hs⟩
  have hpart : TreePart s := by
    clear hs
    induction hreach with
    | refl => exact h
    | tail _ hstep ih => exact treePart_of_part ih hstep
  cases hs with
  | opened hrow =>
    obtain ⟨fields, raw, rfl, -⟩ := hrow
    rcases hpart with h | h | h | h <;> cases h
  | _ => rcases hpart with h | h | h | h <;> cases h

/-- Values of `( Tree, Int )` are compared, and none of them holds a function. -/
theorem concrete_super_ok_sound_iff_tree :
    concrete_super_ok treeNames ⟨TyBounds.EQ⟩ (.tuple [.con [0] 3 [], .con [] 2 []]) (enumOracle treeUnions []) =
        true ∧
      ∀ v, HasTy (treeUnions ++ []) v (.tuple [.con [0] 3 [], .con [] 2 []]) → ¬ v.HoldsFn :=
  ⟨by decide, (concrete_super_ok_sound_iff treeNames treeUnions [] ⟨TyBounds.EQ⟩ _ (Or.inl (by decide))
    (by decide)).2 ((not_reachesFn_iff (by decide)).1 (not_reachesFn_tree (.inl rfl)))⟩

/-- The names of `type Handler = OnClick (Int -> Int)` and `type Outer = Wrap Handler`. -/
def sampleNames : Interner := ⟨["Main", "Handler", "OnClick", "Int", "Outer", "Wrap"]⟩

def sampleUnions : List Union :=
  [⟨[0], 1, [], [⟨2, [.lambda (.con [] 3 []) (.con [] 3 [])]⟩]⟩, ⟨[0], 4, [], [⟨5, [.con [0] 1 []]⟩]⟩]

/-- `Wrap (OnClick f)` is compared, although it holds a function. -/
theorem outer_is_compared :
    concrete_super_ok sampleNames ⟨TyBounds.EQ⟩ (.con [0] 4 []) (enumOracle sampleUnions []) = true ∧
      ∃ v, HasTy sampleUnions v (.con [0] 4 []) ∧ v.HoldsFn := by
  refine ⟨by decide, .ctor 5 [.ctor 2 [.fn]], ?_, Or.inl (Or.inl trivial)⟩
  have houter : Payloads sampleUnions [0] 4 [] 5 [.con [0] 1 []] :=
    ⟨_, List.mem_cons_of_mem _ List.mem_cons_self, rfl, rfl, _, List.mem_cons_self, rfl, rfl⟩
  have hhandler : Payloads sampleUnions [0] 1 [] 2 [.fn (.con [] 3 []) (.con [] 3 [])] :=
    ⟨_, List.mem_cons_self, rfl, rfl, _, List.mem_cons_self, rfl, rfl⟩
  exact ⟨_, houter, ⟨_, hhandler, trivial, trivial⟩, trivial⟩

end IpeLang.Types.Equatable
