import IpeLang.Exhaust.Witness

/-!
# What a pattern stands for

The rows of `expand_upats` in `types/src/exhaust.rs` and the pattern that they are made of.

* `Pattern_.accepts`, `Pattern_.Typed`, `Pattern_.heads`: the values that match a pattern, its type, the
  heads in it;
* `Stands`: rows that accept what a pattern accepts;
* `expand_upats_stands`, `expand_upats_error`: the rows of a pattern stand for it, and only the budget or a
  list that is too long stops them from being made.
-/

namespace IpeLang.Exhaust

open IpeLang.Types (Symbol Span)
open Lib (Str Pat Tree Signature Run)

/-! ### Matching -/

section Accepts

variable {S : Type}

/-- The arguments of a value with some head. -/
def argsOf (head : Head) : Tree Head S → Option (List (Tree Head S))
  | .node head' vs => if head = head' then some vs else none
  | .leaf _ => none

@[simp] theorem argsOf_node (head head' : Head) (vs : List (Tree Head S)) :
    argsOf head (.node head' vs) = if head = head' then some vs else none := rfl

namespace Pattern_

mutual

/-- A pattern accepts a value. -/
def accepts : Pattern_ → Tree Head S → Bool
  | .PAnything, _ => true
  | .PDebugAnything, _ => true
  | .PVar _, _ => true
  | .PUnit, _ => true
  | .PRecord _, _ => true
  | .PCtor home _ name _ args, v => (argsOf (.Adt home name) v).any fun vs => acceptsAll args vs
  | .PTuple elems, v => (argsOf (.Tuple elems.length) v).any fun vs => acceptsAll elems vs
  | .PInt n, v => (argsOf (.Int n) v).any List.isEmpty
  | .PBool b, v => (argsOf (.Bool b) v).any List.isEmpty
  | .PChar c, v => (argsOf (.Char c) v).any List.isEmpty
  | .PStr s, v => (argsOf (.Str s) v).any List.isEmpty
  | .PAlias inner _, v => inner.accepts v
  | .PCons head tail, v => (argsOf .Cons v).any fun
    | [h, t] => head.accepts h && tail.accepts t
    | _ => false
  | .PList elems, v => acceptsSpine elems v
  | .POr alts, v => acceptsSome alts v

/-- Patterns accept values one by one. -/
def acceptsAll : List Pattern_ → List (Tree Head S) → Bool
  | [], [] => true
  | [], _ :: _ => false
  | _ :: _, [] => false
  | p :: ps, v :: vs => p.accepts v && acceptsAll ps vs

/-- Patterns accept the elements of a list. -/
def acceptsSpine : List Pattern_ → Tree Head S → Bool
  | [], v => (argsOf .Nil v).any List.isEmpty
  | e :: elems, v => (argsOf .Cons v).any fun
    | [h, t] => e.accepts h && acceptsSpine elems t
    | _ => false

/-- An alternative accepts a value. -/
def acceptsSome : List (Span × Pattern_) → Tree Head S → Bool
  | [], _ => false
  | (_, p) :: alts, v => p.accepts v || acceptsSome alts v

end

theorem acceptsSome_eq (alts : List (Span × Pattern_)) (v : Tree Head S) :
    acceptsSome alts v = alts.any fun alt => alt.2.accepts v := by
  induction alts with
  | nil => rfl
  | cons alt alts ih => rw [acceptsSome, ih, List.any_cons]

end Pattern_

end Accepts

/-! ### Typed patterns -/

namespace Pattern_

section Typed

variable {T S : Type} (ty : Typing T S)

mutual

/-- A pattern of values of a type. -/
def Typed : T → Pattern_ → Prop
  | _, .PAnything => True
  | _, .PDebugAnything => True
  | _, .PVar _ => True
  | t, .PUnit => ty.view t = .other
  | t, .PRecord _ => ty.view t = .other
  | t, .PCtor home _ name _ args => ∃ ts, headArgs ty.view t (.Adt home name) = some ts ∧ AllTyped ts args
  | t, .PTuple elems => ∃ ts, headArgs ty.view t (.Tuple elems.length) = some ts ∧ AllTyped ts elems
  | t, .PInt n => headArgs ty.view t (.Int n) = some []
  | t, .PBool b => headArgs ty.view t (.Bool b) = some []
  | t, .PChar c => headArgs ty.view t (.Char c) = some []
  | t, .PStr s => headArgs ty.view t (.Str s) = some []
  | t, .PAlias inner _ => Typed t inner
  | t, .PCons head tail => ∃ a, ty.view t = .list a ∧ Typed a head ∧ Typed t tail
  | t, .PList elems => ∃ a, ty.view t = .list a ∧ EachTyped a elems
  | t, .POr alts => AltsTyped t alts

def AllTyped : List T → List Pattern_ → Prop
  | [], [] => True
  | [], _ :: _ => False
  | _ :: _, [] => False
  | t :: ts, p :: ps => Typed t p ∧ AllTyped ts ps

def EachTyped : T → List Pattern_ → Prop
  | _, [] => True
  | t, p :: ps => Typed t p ∧ EachTyped t ps

def AltsTyped : T → List (Span × Pattern_) → Prop
  | _, [] => True
  | t, (_, p) :: alts => Typed t p ∧ AltsTyped t alts

end

variable {ty} in
theorem AltsTyped.mem {t : T} {alts : List (Span × Pattern_)} (h : AltsTyped ty t alts) :
    ∀ alt ∈ alts, Typed ty t alt.2 := by
  induction alts with
  | nil => exact fun alt halt => absurd halt List.not_mem_nil
  | cons alt alts ih => exact List.forall_mem_cons.2 ⟨h.1, ih h.2⟩

end Typed

/-! ### Heads -/

mutual

/-- The heads that occur in a pattern. -/
def heads : Pattern_ → List Head
  | .PAnything => []
  | .PDebugAnything => []
  | .PVar _ => []
  | .PUnit => []
  | .PRecord _ => []
  | .PCtor home _ name _ args => .Adt home name :: headsAll args
  | .PTuple elems => .Tuple elems.length :: headsAll elems
  | .PInt n => [.Int n]
  | .PBool b => [.Bool b]
  | .PChar c => [.Char c]
  | .PStr s => [.Str s]
  | .PAlias inner _ => inner.heads
  | .PCons head tail => .Cons :: (head.heads ++ tail.heads)
  | .PList elems => .Nil :: .Cons :: headsAll elems
  | .POr alts => headsAlts alts

def headsAll : List Pattern_ → List Head
  | [] => []
  | p :: ps => p.heads ++ headsAll ps

def headsAlts : List (Span × Pattern_) → List Head
  | [] => []
  | (_, p) :: alts => p.heads ++ headsAlts alts

end

theorem headsAlts_eq (alts : List (Span × Pattern_)) : headsAlts alts = alts.flatMap fun alt => alt.2.heads := by
  induction alts with
  | nil => rfl
  | cons alt alts ih => rw [headsAlts, ih, List.flatMap_cons]

end Pattern_

section Known

variable {sigs : Sigs}

theorem known_of_isSome {home : List Symbol} {name : Symbol}
    (h : (sigs.ctor_to_union.lookup (home, name)).isNone = false) : Known sigs (.Adt home name) := by
  obtain ⟨u, hu⟩ := Option.ne_none_iff_exists'.1 (Option.isNone_eq_false_iff.1 h |> Option.isSome_iff_ne_none.1)
  exact ⟨u, hu⟩

mutual

/-- The constructors of a pattern that is judged are known. -/
theorem pattern_known (p : Pattern_) (h : pattern_uses_unknown_ctor sigs p = false) :
    ∀ head ∈ p.heads, Known sigs head := by
  cases p with
  | PCtor home type_name name index args =>
    obtain ⟨hctor, hargs⟩ := Bool.or_eq_false_iff.1 h
    exact List.forall_mem_cons.2 ⟨known_of_isSome hctor, patterns_known args hargs⟩
  | PTuple elems => exact List.forall_mem_cons.2 ⟨trivial, patterns_known elems h⟩
  | PAlias inner name => exact pattern_known inner h
  | PCons head tail =>
    obtain ⟨hhead, htail⟩ := Bool.or_eq_false_iff.1 h
    refine List.forall_mem_cons.2 ⟨trivial, fun c hc => ?_⟩
    rcases List.mem_append.1 hc with hc | hc
    · exact pattern_known head hhead c hc
    · exact pattern_known tail htail c hc
  | PList elems =>
    exact List.forall_mem_cons.2 ⟨trivial, List.forall_mem_cons.2 ⟨trivial, patterns_known elems h⟩⟩
  | POr alts => exact alts_known alts h
  | PInt n => exact List.forall_mem_singleton.2 trivial
  | PBool b => exact List.forall_mem_singleton.2 trivial
  | PChar c => exact List.forall_mem_singleton.2 trivial
  | PStr s => exact List.forall_mem_singleton.2 trivial
  | PAnything => exact fun c hc => absurd hc List.not_mem_nil
  | PDebugAnything => exact fun c hc => absurd hc List.not_mem_nil
  | PVar name => exact fun c hc => absurd hc List.not_mem_nil
  | PUnit => exact fun c hc => absurd hc List.not_mem_nil
  | PRecord fields => exact fun c hc => absurd hc List.not_mem_nil

theorem patterns_known (ps : List Pattern_) (h : anyUsesUnknownCtor sigs ps = false) :
    ∀ head ∈ Pattern_.headsAll ps, Known sigs head := by
  cases ps with
  | nil => exact fun c hc => absurd hc List.not_mem_nil
  | cons p ps =>
    obtain ⟨hp, hps⟩ := Bool.or_eq_false_iff.1 h
    intro c hc
    rcases List.mem_append.1 hc with hc | hc
    · exact pattern_known p hp c hc
    · exact patterns_known ps hps c hc

theorem alts_known (alts : List (Span × Pattern_)) (h : anyAltUsesUnknownCtor sigs alts = false) :
    ∀ head ∈ Pattern_.headsAlts alts, Known sigs head := by
  cases alts with
  | nil => exact fun c hc => absurd hc List.not_mem_nil
  | cons alt alts =>
    obtain ⟨hp, hps⟩ := Bool.or_eq_false_iff.1 h
    intro c hc
    rcases List.mem_append.1 hc with hc | hc
    · exact pattern_known alt.2 hp c hc
    · exact alts_known alts hps c hc

end

end Known

/-! ### Rows of a pattern -/

section Stands

variable {T S : Type} {ty : Typing T S}

/-- Rows that say together what a pattern says. -/
structure Stands (ty : Typing T S) (p : Pattern_) (rows : List UPat) : Prop where
  accepts : ∀ v : Tree Head S, p.accepts v = true ↔ ∃ row ∈ rows, row.accepts v = true
  heads : ∀ row ∈ rows, ∀ head ∈ row.heads, head ∈ p.heads
  typed : ∀ t, p.Typed ty t → ∀ row ∈ rows, ty.signature.PatTy t row

/-- Rows that say together what some patterns say of values one by one. -/
structure StandsAll (ty : Typing T S) (ps : List Pattern_) (combos : List Row) : Prop where
  accepts : ∀ vs : List (Tree Head S), Pattern_.acceptsAll ps vs = true ↔ ∃ row ∈ combos, Pat.acceptsAll row vs = true
  heads : ∀ row ∈ combos, ∀ head ∈ Pat.headsAll row, head ∈ Pattern_.headsAll ps
  typed : ∀ ts, Pattern_.AllTyped ty ts ps → ∀ row ∈ combos, ty.signature.AllPatTy ts row

/-- A wildcard stands for a pattern that accepts all values of its type. -/
theorem Stands.wild {p : Pattern_} (h : ∀ v : Tree Head S, p.accepts v = true) : Stands ty p [.Wild] where
  accepts v := by simp [h v]
  heads row hrow head hhead := by
    rw [List.mem_singleton.1 hrow] at hhead
    exact absurd hhead List.not_mem_nil
  typed t _ row hrow := by
    rw [List.mem_singleton.1 hrow]
    trivial

/-- A head over the rows of its arguments stands for a pattern with that head. -/
theorem StandsAll.ctor {p : Pattern_} {head : Head} {args : List Pattern_} {combos : List Row}
    (h : StandsAll ty args combos)
    (haccepts : ∀ v : Tree Head S, p.accepts v = (argsOf head v).any fun vs => Pattern_.acceptsAll args vs)
    (hheads : ∀ c ∈ head :: Pattern_.headsAll args, c ∈ p.heads)
    (htyped : ∀ t, p.Typed ty t → ∃ ts, headArgs ty.view t head = some ts ∧ Pattern_.AllTyped ty ts args) :
    Stands ty p (combos.map (.Ctor head)) where
  accepts v := by
    rw [haccepts, Option.any_eq_true_iff_get]
    cases v with
    | leaf s => simp [argsOf, Pat.accepts]
    | node head' vs =>
      by_cases hhead : head = head'
      · simp [hhead, h.accepts vs]
      · simp [hhead]
  heads row hrow c hc := by
    obtain ⟨combo, hcombo, rfl⟩ := List.mem_map.1 hrow
    rcases List.mem_cons.1 hc with rfl | hc
    · exact hheads _ (List.mem_cons_self ..)
    · exact hheads _ (List.mem_cons_of_mem _ (h.heads combo hcombo c hc))
  typed t ht row hrow := by
    obtain ⟨combo, hcombo, rfl⟩ := List.mem_map.1 hrow
    obtain ⟨ts, hts, hargs⟩ := htyped t ht
    exact ⟨ts, hts, h.typed ts hargs combo hcombo⟩

theorem StandsAll.nil : StandsAll ty [] [[]] where
  accepts vs := by cases vs <;> simp [Pattern_.acceptsAll, Pat.acceptsAll]
  heads row hrow head hhead := by
    rw [List.mem_singleton.1 hrow] at hhead
    exact absurd hhead List.not_mem_nil
  typed ts hts row hrow := by
    rw [List.mem_singleton.1 hrow]
    cases ts with
    | nil => trivial
    | cons t ts => exact absurd hts id

/-- Rows of one choice for each column. -/
theorem StandsAll.of_columns {ps : List Pattern_} {columns : List (List UPat)} {combos : List Row}
    (hcolumns : List.Forall₂ (Stands ty) ps columns)
    (hcombos : ∀ combo, combo ∈ combos ↔ List.Forall₂ (· ∈ ·) combo columns) : StandsAll ty ps combos where
  accepts vs := by
    have hexists : (∃ row ∈ combos, Pat.acceptsAll row vs = true) ↔
        ∃ row, List.Forall₂ (· ∈ ·) row columns ∧ Pat.acceptsAll row vs = true := by
      simp only [hcombos]
    rw [hexists]
    clear hexists hcombos
    induction hcolumns generalizing vs with
    | nil => cases vs <;> simp [Pattern_.acceptsAll, Pat.acceptsAll]
    | @cons p column ps columns hp _ ih =>
      cases vs with
      | nil =>
        simp only [Pattern_.acceptsAll, Bool.false_eq_true, false_iff]
        rintro ⟨row, hrow, haccepts⟩
        cases hrow
        cases haccepts
      | cons v vs =>
        rw [Pattern_.acceptsAll, Bool.and_eq_true, hp.accepts]
        constructor
        · rintro ⟨⟨choice, hchoice, hv⟩, hps⟩
          obtain ⟨row, hrow, hvs⟩ := (ih vs).1 hps
          exact ⟨choice :: row, .cons hchoice hrow, (Pat.acceptsAll_cons ..).2 ⟨hv, hvs⟩⟩
        · rintro ⟨row, hrow, haccepts⟩
          cases hrow with
          | cons hchoice hrow =>
            obtain ⟨hv, hvs⟩ := (Pat.acceptsAll_cons ..).1 haccepts
            exact ⟨⟨_, hchoice, hv⟩, (ih vs).2 ⟨_, hrow, hvs⟩⟩
  heads row hrow head hhead := by
    replace hrow := (hcombos row).1 hrow
    clear hcombos
    induction hcolumns generalizing row with
    | nil =>
      cases hrow
      exact hhead
    | cons hp _ ih =>
      cases hrow with
      | cons hchoice hrow =>
        rcases List.mem_append.1 hhead with hhead | hhead
        · exact List.mem_append_left _ (hp.heads _ hchoice head hhead)
        · exact List.mem_append_right _ (ih _ hhead hrow)
  typed ts hts row hrow := by
    replace hrow := (hcombos row).1 hrow
    clear hcombos
    induction hcolumns generalizing row ts with
    | nil =>
      cases hrow
      cases ts with
      | nil => trivial
      | cons t ts => exact absurd hts id
    | cons hp _ ih =>
      cases hrow with
      | cons hchoice hrow =>
        cases ts with
        | nil => exact absurd hts id
        | cons t ts => exact ⟨hp.typed t hts.1 _ hchoice, ih ts hts.2 _ hrow⟩

end Stands

/-! ### Products -/

theorem mem_product {rows : List Row} {column : List UPat} {row : Row} :
    row ∈ product rows column ↔ ∃ start ∈ rows, ∃ choice ∈ column, row = start ++ [choice] := by
  unfold product
  simp only [List.mem_flatMap, List.mem_map, eq_comm]

theorem mem_cartesianFrom {acc combos : List Row} {columns : List (List UPat)} {budget budget' : ExhaustBudget}
    (h : cartesianFrom acc columns budget = .ok (combos, budget')) {combo : Row} :
    combo ∈ combos ↔ ∃ start ∈ acc, ∃ choices, List.Forall₂ (· ∈ ·) choices columns ∧ combo = start ++ choices := by
  induction columns generalizing acc budget with
  | nil =>
    cases h
    simp
  | cons column columns ih =>
    unfold cartesianFrom at h
    obtain ⟨budget₁, -, h⟩ := Run.bind_eq_ok.1 h
    rw [ih h]
    constructor
    · rintro ⟨start, hstart, choices, hchoices, rfl⟩
      obtain ⟨first, hfirst, choice, hchoice, rfl⟩ := mem_product.1 hstart
      exact ⟨first, hfirst, choice :: choices, .cons hchoice hchoices, List.append_assoc ..⟩
    · rintro ⟨start, hstart, choices, hchoices, rfl⟩
      cases hchoices with
      | @cons choice _ choices _ hchoice hchoices =>
        refine ⟨start ++ [choice], mem_product.2 ⟨start, hstart, choice, hchoice, rfl⟩, choices, hchoices, ?_⟩
        rw [List.append_assoc, List.singleton_append]

theorem mem_cartesian {columns : List (List UPat)} {combos : List Row} {budget budget' : ExhaustBudget}
    (h : cartesian columns budget = .ok (combos, budget')) (combo : Row) :
    combo ∈ combos ↔ List.Forall₂ (· ∈ ·) combo columns := by
  rw [mem_cartesianFrom h]
  simp

/-! ### Expansion -/

section Expand

variable {T S : Type} (ty : Typing T S)

/-- A head and the rest of a list accept what a pattern of the two accepts. -/
theorem any_cons_eq (head tail : Pattern_) (args : Option (List (Tree Head S))) :
    (args.any fun | [h, t] => head.accepts h && tail.accepts t | _ => false) =
      args.any fun vs => Pattern_.acceptsAll [head, tail] vs := by
  rcases args with _ | _ | ⟨h, _ | ⟨t, _ | ⟨v, vs⟩⟩⟩ <;> simp [Pattern_.acceptsAll]

theorem any_isEmpty_eq (args : Option (List (Tree Head S))) :
    args.any List.isEmpty = args.any fun vs => Pattern_.acceptsAll [] vs := by
  rcases args with _ | _ | ⟨h, vs⟩ <;> simp [Pattern_.acceptsAll]

/-- The row of a literal. -/
theorem stands_literal {p : Pattern_} {head : Head}
    (haccepts : ∀ v : Tree Head S, p.accepts v = (argsOf head v).any List.isEmpty) (hheads : p.heads = [head])
    (htyped : ∀ t, p.Typed ty t → headArgs ty.view t head = some []) : Stands ty p [.Ctor head []] := by
  refine StandsAll.nil.ctor (fun v => ?_) (fun c hc => ?_) (fun t ht => ⟨[], htyped t ht, trivial⟩)
  · rw [haccepts, any_isEmpty_eq]
  · rwa [hheads]

/-- Rows of the head and of the rest of a list. -/
theorem stands_cons {p head tail : Pattern_} {heads tails : List UPat} {combos : List Row}
    (hhead : Stands ty head heads) (htail : Stands ty tail tails)
    (hcombos : ∀ combo, combo ∈ combos ↔ List.Forall₂ (· ∈ ·) combo [heads, tails])
    (haccepts : ∀ v : Tree Head S, p.accepts v =
      (argsOf .Cons v).any fun | [h, t] => head.accepts h && tail.accepts t | _ => false)
    (hheads : ∀ c ∈ .Cons :: (head.heads ++ tail.heads), c ∈ p.heads)
    (htyped : ∀ t, p.Typed ty t → ∃ a, ty.view t = .list a ∧ head.Typed ty a ∧ tail.Typed ty t) :
    Stands ty p (combos.map (.Ctor .Cons)) := by
  have hall : StandsAll ty [head, tail] combos :=
    .of_columns (.cons hhead (.cons htail .nil)) hcombos
  refine hall.ctor (fun v => ?_) (fun c hc => hheads c ?_) (fun t ht => ?_)
  · rw [haccepts, any_cons_eq]
  · simpa [Pattern_.headsAll] using hc
  · obtain ⟨a, hview, ha, ht'⟩ := htyped t ht
    exact ⟨[a, t], by simp [headArgs, hview], ha, ht', trivial⟩

theorem pairs_eq (heads tails : List UPat) :
    (heads.flatMap fun h => tails.map fun tail => .Ctor .Cons [h, tail]) =
      (heads.flatMap fun h => tails.map fun tail => [h, tail]).map (Pat.Ctor Head.Cons) := by
  simp [List.map_flatMap, Function.comp_def]

theorem mem_pairs (heads tails : List UPat) (combo : Row) :
    (combo ∈ heads.flatMap fun h => tails.map fun tail => [h, tail]) ↔
      List.Forall₂ (· ∈ ·) combo [heads, tails] := by
  simp only [List.mem_flatMap, List.mem_map]
  constructor
  · rintro ⟨h, hh, tail, htail, rfl⟩
    exact .cons hh (.cons htail .nil)
  · rintro (_ | ⟨hh, _ | ⟨htail, ⟨⟩⟩⟩)
    exact ⟨_, hh, _, htail, rfl⟩

mutual

/-- The rows of a pattern stand for it. -/
theorem expand_upats_stands (p : Pattern_) {rows : List UPat} {budget budget' : ExhaustBudget}
    (h : expand_upats p budget = .ok (rows, budget')) : Stands ty p rows := by
  cases p with
  | PAnything | PDebugAnything | PVar name | PUnit | PRecord fields =>
    obtain ⟨budget₁, -, h⟩ := Run.bind_eq_ok.1 h
    cases h
    exact .wild fun v => rfl
  | PInt n | PBool b | PChar c | PStr s =>
    obtain ⟨budget₁, -, h⟩ := Run.bind_eq_ok.1 h
    cases h
    exact stands_literal ty (fun v => rfl) rfl fun t ht => ht
  | PCtor home type_name name index args =>
    obtain ⟨⟨columns, budget₁⟩, hcolumns, h⟩ := Run.bind_eq_ok.1 h
    obtain ⟨⟨combos, budget₂⟩, hcombos, h⟩ := Run.bind_eq_ok.1 h
    cases h
    have hall := StandsAll.of_columns (expandAll_stands args hcolumns) (mem_cartesian hcombos)
    exact hall.ctor (fun v => rfl) (fun c hc => hc) fun t ht => ht
  | PTuple elems =>
    obtain ⟨⟨columns, budget₁⟩, hcolumns, h⟩ := Run.bind_eq_ok.1 h
    obtain ⟨⟨combos, budget₂⟩, hcombos, h⟩ := Run.bind_eq_ok.1 h
    cases h
    have hall := StandsAll.of_columns (expandAll_stands elems hcolumns) (mem_cartesian hcombos)
    exact hall.ctor (fun v => rfl) (fun c hc => hc) fun t ht => ht
  | PAlias inner name =>
    obtain ⟨haccepts, hheads, htyped⟩ := expand_upats_stands inner h
    exact ⟨haccepts, hheads, htyped⟩
  | PCons head tail =>
    obtain ⟨⟨head_rows, budget₁⟩, hhead, h⟩ := Run.bind_eq_ok.1 h
    obtain ⟨⟨tail_rows, budget₂⟩, htail, h⟩ := Run.bind_eq_ok.1 h
    obtain ⟨⟨combos, budget₃⟩, hcombos, h⟩ := Run.bind_eq_ok.1 h
    cases h
    exact stands_cons ty (expand_upats_stands head hhead) (expand_upats_stands tail htail) (mem_cartesian hcombos)
      (fun v => rfl) (fun c hc => hc) fun t ht => ht
  | PList elems =>
    unfold expand_upats at h
    split_ifs at h
    exact expandSpine_stands elems h
  | POr alts =>
    obtain ⟨⟨out, budget₁⟩, hout, h⟩ := Run.bind_eq_ok.1 h
    obtain ⟨budget₂, -, h⟩ := Run.bind_eq_ok.1 h
    cases h
    exact expandAlts_stands alts hout

theorem expandAll_stands (ps : List Pattern_) {columns : List (List UPat)} {budget budget' : ExhaustBudget}
    (h : expandAll ps budget = .ok (columns, budget')) : List.Forall₂ (Stands ty) ps columns := by
  cases ps with
  | nil =>
    cases h
    exact .nil
  | cons p ps =>
    obtain ⟨⟨column, budget₁⟩, hcolumn, h⟩ := Run.bind_eq_ok.1 h
    obtain ⟨⟨columns, budget₂⟩, hcolumns, h⟩ := Run.bind_eq_ok.1 h
    cases h
    exact .cons (expand_upats_stands p hcolumn) (expandAll_stands ps hcolumns)

theorem expandSpine_stands (elems : List Pattern_) {rows : List UPat} {budget budget' : ExhaustBudget}
    (h : expandSpine elems budget = .ok (rows, budget')) : Stands ty (.PList elems) rows := by
  cases elems with
  | nil =>
    cases h
    refine StandsAll.nil.ctor (fun v => ?_) (fun c hc => ?_) fun t ht => ?_
    · exact any_isEmpty_eq _
    · exact List.mem_cons.2 (.inl (List.mem_singleton.1 hc))
    · obtain ⟨a, hview, -⟩ := ht
      exact ⟨[], by simp [headArgs, hview], trivial⟩
  | cons e elems =>
    obtain ⟨⟨tails, budget₁⟩, htails, h⟩ := Run.bind_eq_ok.1 h
    obtain ⟨⟨heads, budget₂⟩, hheads, h⟩ := Run.bind_eq_ok.1 h
    obtain ⟨budget₃, -, h⟩ := Run.bind_eq_ok.1 h
    cases h
    rw [pairs_eq]
    refine stands_cons ty (expand_upats_stands e hheads) (expandSpine_stands elems htails) (mem_pairs heads tails)
      (fun v => rfl) (fun c hc => ?_) fun t ht => ?_
    · simp only [Pattern_.heads, Pattern_.headsAll, List.mem_cons, List.mem_append] at hc ⊢
      tauto
    · obtain ⟨a, hview, he, helems⟩ := ht
      exact ⟨a, hview, he, a, hview, helems⟩

theorem expandAlts_stands (alts : List (Span × Pattern_)) {rows : List UPat} {budget budget' : ExhaustBudget}
    (h : expandAlts alts budget = .ok (rows, budget')) : Stands ty (.POr alts) rows := by
  cases alts with
  | nil =>
    cases h
    exact ⟨fun v => by simp [Pattern_.accepts, Pattern_.acceptsSome], fun row hrow => absurd hrow List.not_mem_nil,
      fun t _ row hrow => absurd hrow List.not_mem_nil⟩
  | cons alt alts =>
    obtain ⟨⟨rows, budget₁⟩, hrows, h⟩ := Run.bind_eq_ok.1 h
    obtain ⟨⟨out, budget₂⟩, hout, h⟩ := Run.bind_eq_ok.1 h
    cases h
    have hfirst := expand_upats_stands alt.2 hrows
    have hrest := expandAlts_stands alts hout
    refine ⟨fun v => ?_, fun row hrow head hhead => ?_, fun t ht row hrow => ?_⟩
    · have hrest := hrest.accepts v
      simp only [List.mem_append, or_and_right, exists_or, ← hfirst.accepts, ← hrest]
      exact Bool.or_eq_true_iff
    · rcases List.mem_append.1 hrow with hrow | hrow
      · exact List.mem_append_left _ (hfirst.heads row hrow head hhead)
      · exact List.mem_append_right _ (hrest.heads row hrow head hhead)
    · rcases List.mem_append.1 hrow with hrow | hrow
      · exact hfirst.typed t ht.1 row hrow
      · exact hrest.typed t ht.2 row hrow

end

end Expand

/-! ### Errors -/

def Exceeded (e : Lib.Stop Failure) : Prop := ∃ limit, e = .diag (.StepBudgetExceeded limit)

theorem charge_exceeded {budget : ExhaustBudget} {n : ℕ} {e : Lib.Stop Failure} (h : budget.charge n = .error e) :
    Exceeded e := ⟨_, ExhaustBudget.charge_error h⟩

theorem cartesianFrom_error {columns : List (List UPat)} {acc : List Row} {budget : ExhaustBudget}
    {e : Lib.Stop Failure} (h : cartesianFrom acc columns budget = .error e) : Exceeded e := by
  induction columns generalizing acc budget with
  | nil => cases h
  | cons column columns ih =>
    rcases Run.bind_eq_error.1 h with h | ⟨budget₁, -, h⟩
    · exact charge_exceeded h
    · exact ih h

mutual

/-- Only the budget, or a list that is too long, stops the rows from being made. -/
theorem expand_upats_error (p : Pattern_) {budget : ExhaustBudget} {e : Lib.Stop Failure}
    (h : expand_upats p budget = .error e) : Exceeded e := by
  cases p with
  | PAnything | PDebugAnything | PVar name | PUnit | PRecord fields | PInt n | PBool b | PChar c | PStr s =>
    rcases Run.bind_eq_error.1 h with h | ⟨budget₁, -, h⟩
    · exact charge_exceeded h
    · cases h
  | PCtor home type_name name index args =>
    rcases Run.bind_eq_error.1 h with h | ⟨⟨columns, budget₁⟩, -, h⟩
    · exact expandAll_error args h
    · rcases Run.bind_eq_error.1 h with h | ⟨⟨combos, budget₂⟩, -, h⟩
      · exact cartesianFrom_error h
      · cases h
  | PTuple elems =>
    rcases Run.bind_eq_error.1 h with h | ⟨⟨columns, budget₁⟩, -, h⟩
    · exact expandAll_error elems h
    · rcases Run.bind_eq_error.1 h with h | ⟨⟨combos, budget₂⟩, -, h⟩
      · exact cartesianFrom_error h
      · cases h
  | PAlias inner name => exact expand_upats_error inner h
  | PCons head tail =>
    rcases Run.bind_eq_error.1 h with h | ⟨⟨head_rows, budget₁⟩, -, h⟩
    · exact expand_upats_error head h
    · rcases Run.bind_eq_error.1 h with h | ⟨⟨tail_rows, budget₂⟩, -, h⟩
      · exact expand_upats_error tail h
      · rcases Run.bind_eq_error.1 h with h | ⟨⟨combos, budget₃⟩, -, h⟩
        · exact cartesianFrom_error h
        · cases h
  | PList elems =>
    unfold expand_upats at h
    split_ifs at h
    · cases h
      exact ⟨_, rfl⟩
    · exact expandSpine_error elems h
  | POr alts =>
    rcases Run.bind_eq_error.1 h with h | ⟨⟨out, budget₁⟩, -, h⟩
    · exact expandAlts_error alts h
    · rcases Run.bind_eq_error.1 h with h | ⟨budget₂, -, h⟩
      · exact charge_exceeded h
      · cases h

theorem expandAll_error (ps : List Pattern_) {budget : ExhaustBudget} {e : Lib.Stop Failure}
    (h : expandAll ps budget = .error e) : Exceeded e := by
  cases ps with
  | nil => cases h
  | cons p ps =>
    rcases Run.bind_eq_error.1 h with h | ⟨⟨column, budget₁⟩, -, h⟩
    · exact expand_upats_error p h
    · rcases Run.bind_eq_error.1 h with h | ⟨⟨columns, budget₂⟩, -, h⟩
      · exact expandAll_error ps h
      · cases h

theorem expandSpine_error (elems : List Pattern_) {budget : ExhaustBudget} {e : Lib.Stop Failure}
    (h : expandSpine elems budget = .error e) : Exceeded e := by
  cases elems with
  | nil => cases h
  | cons p elems =>
    rcases Run.bind_eq_error.1 h with h | ⟨⟨rows, budget₁⟩, -, h⟩
    · exact expandSpine_error elems h
    · rcases Run.bind_eq_error.1 h with h | ⟨⟨heads, budget₂⟩, -, h⟩
      · exact expand_upats_error p h
      · rcases Run.bind_eq_error.1 h with h | ⟨budget₃, -, h⟩
        · exact charge_exceeded h
        · cases h

theorem expandAlts_error (alts : List (Span × Pattern_)) {budget : ExhaustBudget} {e : Lib.Stop Failure}
    (h : expandAlts alts budget = .error e) : Exceeded e := by
  cases alts with
  | nil => cases h
  | cons alt alts =>
    rcases Run.bind_eq_error.1 h with h | ⟨⟨rows, budget₁⟩, -, h⟩
    · exact expand_upats_error alt.2 h
    · rcases Run.bind_eq_error.1 h with h | ⟨⟨out, budget₂⟩, -, h⟩
      · exact expandAlts_error alts h
      · cases h

end

end IpeLang.Exhaust
