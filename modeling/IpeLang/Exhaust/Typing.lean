import IpeLang.Exhaust.Useful

/-!
# Types of patterns

What the patterns of a `case` are judged over: the types of a program as far as patterns look into them.

* `View`: the heads of the values of a type;
* `Typing`: the types of a program over its declared unions;
* `build_describes`: the tables that are built from the unions of a module say what its types are;
* `complete_signature_heads`, `missing_heads_missed`: what a column that has, or has not, all heads of its
  type says of the values of the type.
-/

namespace IpeLang.Exhaust

open IpeLang.Types (Symbol Span)
open Lib (Str Pat Tree Signature)

/-! ### Types -/

/-- What patterns see of a type. -/
inductive View (T : Type)
  | union (home : List Symbol) (name : Symbol) (ctors : List (Symbol × List T))
  | tuple (elems : List T)
  | bool
  | int
  | char
  | str
  | list (elem : T)
  | other

/-- The types of the arguments of a head at a type. The text of a character has one character. -/
def headArgs {T : Type} (view : T → View T) (t : T) (head : Head) : Option (List T) :=
  match view t, head with
  | .union home _ ctors, .Adt h c => if h = home then ctors.lookup c else none
  | .tuple ts, .Tuple n => if n = ts.length then some ts else none
  | .bool, .Bool _ => some []
  | .int, .Int _ => some []
  | .char, .Char c => if c.length = 1 then some [] else none
  | .str, .Str _ => some []
  | .list _, .Nil => some []
  | .list a, .Cons => some [a, t]
  | _, _ => none

/-- A declared union: its constructors with their numbers of arguments. -/
abbrev Decl := TyId × List (Symbol × ℕ)

/-- What a view says of a union. -/
def declOf {T : Type} (home : List Symbol) (name : Symbol) (ctors : List (Symbol × List T)) : Decl :=
  ((home, name), ctors.map fun c => (c.1, c.2.length))

/-- Unions are known by their homes and names, and no two constructors of a home have the same name. -/
structure Distinct (decls : List Decl) : Prop where
  ids : ∀ d ∈ decls, ∀ d' ∈ decls, d.1 = d'.1 → d = d'
  ctors : ∀ d ∈ decls, ∀ d' ∈ decls, d.1.1 = d'.1.1 → ∀ c ∈ d.2, ∀ c' ∈ d'.2, c.1 = c'.1 → d = d'
  names : ∀ d ∈ decls, (d.2.map Prod.fst).Nodup

/-- The types of a program. The values of a type that is none of unions, tuples, lists and literals are
leaves. -/
structure Typing (T S : Type) where
  view : T → View T
  leaf : T → S → Prop
  unions : List Decl
  distinct : Distinct unions
  declared : ∀ t home name ctors, view t = .union home name ctors → declOf home name ctors ∈ unions

namespace Typing

variable {T S : Type}

def signature (ty : Typing T S) : Signature T Head S where
  args := headArgs ty.view
  leaf t s := ty.view t = .other ∧ ty.leaf t s

end Typing

/-! ### Tables -/

/-- The unions that tables are built from. -/
def declarations (exhaust_union_ctors : List (Symbol × List (Symbol × ℕ))) (module_unions extra_unions : List Union) :
    List Decl :=
  exhaust_union_ctors.map (fun u => (([], u.1), u.2)) ++
    (module_unions ++ extra_unions).map fun u => ((u.home, u.name), u.sorted)

def Sigs.ofDecls (decls : List Decl) (sigs : Sigs) : Sigs := decls.foldl (fun sigs d => sigs.add d.1 d.2) sigs

theorem build_eq (exhaust_union_ctors : List (Symbol × List (Symbol × ℕ))) (module_unions extra_unions : List Union) :
    Sigs.build exhaust_union_ctors module_unions extra_unions =
      Sigs.ofDecls (declarations exhaust_union_ctors module_unions extra_unions) ⟨[], [], []⟩ := by
  simp only [Sigs.build, Sigs.ofDecls, declarations, List.foldl_append, List.map_append, List.foldl_map]

/-- A head that the tables know. -/
def Known (sigs : Sigs) : Head → Prop
  | .Adt h c => ∃ u, sigs.ctor_to_union.lookup (h, c) = some u
  | _ => True

/-- The tables say of every union of which they know a constructor what its types are. -/
def Describes {T : Type} (sigs : Sigs) (view : T → View T) : Prop :=
  ∀ t home name ctors, view t = .union home name ctors → ∀ c ∈ ctors, Known sigs (.Adt home c.1) →
    sigs.unionOf home c.1 = some (home, (declOf home name ctors).2) ∧
      ∀ c' ∈ ctors, Known sigs (.Adt home c'.1) ∧ sigs.arity (.Adt home c'.1) = c'.2.length

section Build

variable {decls : List Decl}

/-- A key with one value in a table. -/
theorem lookup_of_mem {K V : Type} [BEq K] [LawfulBEq K] {l : List (K × V)} {k : K} {v : V} (hmem : (k, v) ∈ l)
    (hfun : ∀ v', (k, v') ∈ l → v' = v) : l.lookup k = some v := by
  cases hlookup : l.lookup k with
  | none =>
    have hne := List.lookup_eq_none_iff.1 hlookup _ hmem
    simp at hne
  | some v' =>
    obtain ⟨l₁, l₂, hsplit, -⟩ := List.lookup_eq_some_iff.1 hlookup
    rw [hfun v' (by rw [hsplit]; simp)]

theorem mem_of_lookup {K V : Type} [BEq K] [LawfulBEq K] {l : List (K × V)} {k : K} {v : V} (h : l.lookup k = some v) :
    (k, v) ∈ l := by
  obtain ⟨l₁, l₂, hsplit, -⟩ := List.lookup_eq_some_iff.1 h
  rw [hsplit]
  simp

/-- What is in a table that is built from declarations. -/
theorem mem_ofDecls {V : Type} (table : Sigs → List V) (entries : Decl → List V)
    (hadd : ∀ (sigs : Sigs) (d : Decl) (p : V), p ∈ table (sigs.add d.1 d.2) ↔ p ∈ entries d ∨ p ∈ table sigs)
    {sigs : Sigs} {p : V} :
    p ∈ table (Sigs.ofDecls decls sigs) ↔ (∃ d ∈ decls, p ∈ entries d) ∨ p ∈ table sigs := by
  induction decls generalizing sigs with
  | nil => simp [Sigs.ofDecls]
  | cons d decls ih =>
    have hfold : Sigs.ofDecls (d :: decls) sigs = Sigs.ofDecls decls (sigs.add d.1 d.2) := rfl
    rw [hfold, ih, hadd]
    simp only [List.mem_cons, exists_eq_or_imp]
    exact or_left_comm.trans or_assoc.symm

theorem mem_ctor_to_union {home : List Symbol} {name : Symbol} {u : TyId} :
    ((home, name), u) ∈ (Sigs.ofDecls decls ⟨[], [], []⟩).ctor_to_union ↔
      ∃ d ∈ decls, d.1.1 = home ∧ d.1 = u ∧ ∃ c ∈ d.2, c.1 = name := by
  rw [mem_ofDecls Sigs.ctor_to_union (fun d => d.2.map fun c => ((d.1.1, c.1), d.1))]
  · simp only [List.mem_map, Prod.mk.injEq, List.not_mem_nil, or_false]
    constructor
    · rintro ⟨d, hd, c, hc, ⟨hhome, hname⟩, hu⟩
      exact ⟨d, hd, hhome, hu, c, hc, hname⟩
    · rintro ⟨d, hd, hhome, hu, c, hc, hname⟩
      exact ⟨d, hd, c, hc, ⟨hhome, hname⟩, hu⟩
  · intro sigs d p
    simp [Sigs.add]

theorem mem_union_ctors {u : TyId} {ctors : List (Symbol × ℕ)} :
    (u, ctors) ∈ (Sigs.ofDecls decls ⟨[], [], []⟩).union_ctors ↔ (u, ctors) ∈ decls := by
  rw [mem_ofDecls Sigs.union_ctors (fun d => [d])]
  · simp
  · intro sigs d p
    simp [Sigs.add]

theorem mem_ctor_arity {home : List Symbol} {name : Symbol} {n : ℕ} :
    ((home, name), n) ∈ (Sigs.ofDecls decls ⟨[], [], []⟩).ctor_arity ↔
      ∃ d ∈ decls, d.1.1 = home ∧ (name, n) ∈ d.2 := by
  rw [mem_ofDecls Sigs.ctor_arity (fun d => d.2.map fun c => ((d.1.1, c.1), c.2))]
  · simp only [List.mem_map, Prod.mk.injEq, List.not_mem_nil, or_false]
    constructor
    · rintro ⟨d, hd, ⟨name', n'⟩, hc, ⟨hhome, rfl⟩, rfl⟩
      exact ⟨d, hd, hhome, hc⟩
    · rintro ⟨d, hd, hhome, hc⟩
      exact ⟨d, hd, _, hc, ⟨hhome, rfl⟩, rfl⟩
  · intro sigs d p
    simp [Sigs.add]

/-- A constructor has one entry among distinct declarations. -/
theorem Distinct.entry {program : List Decl} (h : Distinct program) {d d' : Decl} (hd : d ∈ program) (hd' : d' ∈ program)
    (hhome : d.1.1 = d'.1.1) {name : Symbol} {n n' : ℕ} (hc : (name, n) ∈ d.2) (hc' : (name, n') ∈ d'.2) :
    d = d' ∧ n = n' := by
  obtain rfl := h.ctors d hd d' hd' hhome _ hc _ hc' rfl
  exact ⟨rfl, (Prod.mk.inj (List.inj_on_of_nodup_map (h.names d hd) hc hc' rfl)).2⟩

/-- The tables of some of the unions of a program describe its types. -/
theorem ofDecls_describes {T S : Type} (ty : Typing T S) (hdecls : ∀ d ∈ decls, d ∈ ty.unions) :
    Describes (Sigs.ofDecls decls ⟨[], [], []⟩) ty.view := by
  intro t home name ctors hview c hc hknown
  have hdecl := ty.declared t home name ctors hview
  have hentry : ∀ c' ∈ ctors, (c'.1, c'.2.length) ∈ (declOf home name ctors).2 := fun c' hc' =>
    List.mem_map_of_mem (f := fun c : Symbol × List T => (c.1, c.2.length)) hc'
  -- the union is one of those that the tables are built from
  have hmem : declOf home name ctors ∈ decls := by
    obtain ⟨u, hu⟩ := hknown
    obtain ⟨d, hd, hhome, -, ⟨cname, n⟩, hcd, rfl⟩ := mem_ctor_to_union.1 (mem_of_lookup hu)
    obtain ⟨rfl, -⟩ := ty.distinct.entry (hdecls d hd) hdecl hhome hcd (hentry c hc)
    exact hd
  have hunion : ∀ c' ∈ ctors, (Sigs.ofDecls decls ⟨[], [], []⟩).ctor_to_union.lookup (home, c'.1) =
      some (home, name) := by
    intro c' hc'
    refine lookup_of_mem (mem_ctor_to_union.2 ⟨_, hmem, rfl, rfl, _, hentry c' hc', rfl⟩) fun u hu => ?_
    obtain ⟨d, hd, hhome, rfl, ⟨cname, n⟩, hcd, rfl⟩ := mem_ctor_to_union.1 hu
    obtain ⟨rfl, -⟩ := ty.distinct.entry (hdecls d hd) hdecl hhome hcd (hentry c' hc')
    rfl
  have hctors : (Sigs.ofDecls decls ⟨[], [], []⟩).union_ctors.lookup (home, name) =
      some (declOf home name ctors).2 := by
    refine lookup_of_mem (mem_union_ctors.2 hmem) fun ctors' hctors' => ?_
    have hsame := ty.distinct.ids _ (hdecls _ (mem_union_ctors.1 hctors')) _ hdecl rfl
    exact congrArg Prod.snd hsame
  refine ⟨?_, fun c' hc' => ⟨⟨_, hunion c' hc'⟩, ?_⟩⟩
  · rw [Sigs.unionOf, hunion c hc]
    simp only [Option.bind_eq_bind, Option.bind_some, hctors]
  · have harity : (Sigs.ofDecls decls ⟨[], [], []⟩).ctor_arity.lookup (home, c'.1) = some c'.2.length := by
      refine lookup_of_mem (mem_ctor_arity.2 ⟨_, hmem, rfl, hentry c' hc'⟩) fun n hn => ?_
      obtain ⟨d, hd, hhome, hcd⟩ := mem_ctor_arity.1 hn
      exact (ty.distinct.entry (hdecls d hd) hdecl hhome hcd (hentry c' hc')).2
    rw [Sigs.arity, harity, Option.getD_some]

end Build

/-! ### Heads of a type -/

section Heads

variable {T S : Type} {view : T → View T} {t : T} {ts : List T}

theorem headArgs_adt {h : List Symbol} {c : Symbol} (hargs : headArgs view t (.Adt h c) = some ts) :
    ∃ name ctors, view t = .union h name ctors ∧ ctors.lookup c = some ts := by
  unfold headArgs at hargs
  cases hview : view t with
  | union home name ctors =>
    rw [hview] at hargs
    simp only at hargs
    split_ifs at hargs with hhome
    rw [hhome]
    exact ⟨name, ctors, rfl, hargs⟩
  | _ =>
    rw [hview] at hargs
    cases hargs

theorem headArgs_tuple {n : ℕ} (hargs : headArgs view t (.Tuple n) = some ts) : view t = .tuple ts ∧ n = ts.length := by
  unfold headArgs at hargs
  cases hview : view t with
  | tuple elems =>
    rw [hview] at hargs
    simp only at hargs
    split_ifs at hargs with hn
    cases hargs
    exact ⟨rfl, hn⟩
  | _ =>
    rw [hview] at hargs
    cases hargs

theorem headArgs_bool {b : Bool} (hargs : headArgs view t (.Bool b) = some ts) : view t = .bool ∧ ts = [] := by
  unfold headArgs at hargs
  cases hview : view t with
  | bool =>
    rw [hview] at hargs
    cases hargs
    exact ⟨rfl, rfl⟩
  | _ =>
    rw [hview] at hargs
    cases hargs

theorem headArgs_int {n : Int64} (hargs : headArgs view t (.Int n) = some ts) : view t = .int ∧ ts = [] := by
  unfold headArgs at hargs
  cases hview : view t with
  | int =>
    rw [hview] at hargs
    cases hargs
    exact ⟨rfl, rfl⟩
  | _ =>
    rw [hview] at hargs
    cases hargs

theorem headArgs_char {c : Str} (hargs : headArgs view t (.Char c) = some ts) : view t = .char ∧ ts = [] := by
  unfold headArgs at hargs
  cases hview : view t with
  | char =>
    rw [hview] at hargs
    simp only at hargs
    split_ifs at hargs
    cases hargs
    exact ⟨rfl, rfl⟩
  | _ =>
    rw [hview] at hargs
    cases hargs

theorem headArgs_str {s : Str} (hargs : headArgs view t (.Str s) = some ts) : view t = .str ∧ ts = [] := by
  unfold headArgs at hargs
  cases hview : view t with
  | str =>
    rw [hview] at hargs
    cases hargs
    exact ⟨rfl, rfl⟩
  | _ =>
    rw [hview] at hargs
    cases hargs

theorem headArgs_nil (hargs : headArgs view t .Nil = some ts) : ∃ a, view t = .list a ∧ ts = [] := by
  unfold headArgs at hargs
  cases hview : view t with
  | list a =>
    rw [hview] at hargs
    cases hargs
    exact ⟨a, rfl, rfl⟩
  | _ =>
    rw [hview] at hargs
    cases hargs

theorem headArgs_cons (hargs : headArgs view t .Cons = some ts) : ∃ a, view t = .list a ∧ ts = [a, t] := by
  unfold headArgs at hargs
  cases hview : view t with
  | list a =>
    rw [hview] at hargs
    cases hargs
    exact ⟨a, rfl, rfl⟩
  | _ =>
    rw [hview] at hargs
    cases hargs

/-- The tables know the numbers of arguments of the heads that they know. -/
theorem arity_eq {sigs : Sigs} (hsigs : Describes sigs view) {head : Head} (hknown : Known sigs head)
    (hargs : headArgs view t head = some ts) : sigs.arity head = ts.length := by
  cases head with
  | Adt h c =>
    obtain ⟨name, ctors, hview, hlookup⟩ := headArgs_adt hargs
    have hmem := mem_of_lookup hlookup
    exact ((hsigs t h name ctors hview _ hmem hknown).2 _ hmem).2
  | Tuple n => exact (headArgs_tuple hargs).2
  | Bool b =>
    rw [(headArgs_bool hargs).2]
    rfl
  | Int n =>
    rw [(headArgs_int hargs).2]
    rfl
  | Char c =>
    rw [(headArgs_char hargs).2]
    rfl
  | Str s =>
    rw [(headArgs_str hargs).2]
    rfl
  | Nil =>
    obtain ⟨a, -, rfl⟩ := headArgs_nil hargs
    rfl
  | Cons =>
    obtain ⟨a, -, rfl⟩ := headArgs_cons hargs
    rfl

/-- A value of a type that patterns look into has one of its heads. -/
theorem exists_head {ty : Typing T S} {v : Tree Head S} (hv : ty.signature.HasTy t v) (hview : ty.view t ≠ .other) :
    ∃ head vs us, v = .node head vs ∧ headArgs ty.view t head = some us ∧ ty.signature.AllHaveTy us vs := by
  cases v with
  | leaf s => exact absurd hv.1 hview
  | node head vs =>
    obtain ⟨us, hus, hvs⟩ := hv
    exact ⟨head, vs, us, rfl, hus, hvs⟩

end Heads

/-! ### Columns -/

section Columns

variable {T S : Type} {ty : Typing T S} {sigs : Sigs} {t : T} {roots : List Head}

/-- A column of a type, whose heads are all known. -/
def Column (ty : Typing T S) (sigs : Sigs) (t : T) (roots : List Head) : Prop :=
  ∀ root ∈ roots, Known sigs root ∧ ∃ ts, headArgs ty.view t root = some ts

/-- The union that a column of constructors belongs to. -/
theorem Column.union (hsigs : Describes sigs ty.view) {h : List Symbol} {c : Symbol} (hcol : Column ty sigs t roots)
    (hroot : .Adt h c ∈ roots) :
    ∃ name ctors, ty.view t = .union h name ctors ∧ sigs.unionOf h c = some (h, (declOf h name ctors).2) ∧
      ∀ c' ∈ ctors, Known sigs (.Adt h c'.1) ∧ sigs.arity (.Adt h c'.1) = c'.2.length := by
  obtain ⟨hknown, ts, hargs⟩ := hcol _ hroot
  obtain ⟨name, ctors, hview, hlookup⟩ := headArgs_adt hargs
  obtain ⟨hunion, hall⟩ := hsigs t h name ctors hview _ (mem_of_lookup hlookup) hknown
  exact ⟨name, ctors, hview, hunion, hall⟩

/-- A constructor of a union is looked up under its name. -/
theorem lookup_ctor {home : List Symbol} {name : Symbol} {ctors : List (Symbol × List T)}
    (hview : ty.view t = .union home name ctors) {c : Symbol × List T} (hc : c ∈ ctors) :
    ctors.lookup c.1 = some c.2 := by
  refine lookup_of_mem hc fun ts' hts' => ?_
  have hnodup := ty.distinct.names _ (ty.declared t home name ctors hview)
  rw [declOf, List.map_map] at hnodup
  exact (Prod.mk.inj (List.inj_on_of_nodup_map hnodup hts' hc rfl)).2

theorem headArgs_ctor {home : List Symbol} {name : Symbol} {ctors : List (Symbol × List T)}
    (hview : ty.view t = .union home name ctors) {c : Symbol × List T} (hc : c ∈ ctors) :
    headArgs ty.view t (.Adt home c.1) = some c.2 := by
  simp only [headArgs, hview, if_true]
  exact lookup_ctor hview hc

theorem mem_adtNames {name : Symbol} : name ∈ adtNames roots ↔ ∃ home, .Adt home name ∈ roots := by
  unfold adtNames
  rw [List.mem_filterMap]
  constructor
  · rintro ⟨head, hhead, hname⟩
    cases head with
    | Adt home name' =>
      cases hname
      exact ⟨home, hhead⟩
    | _ => cases hname
  · rintro ⟨home, hmem⟩
    exact ⟨_, hmem, rfl⟩

/-- The constructors of a column all have the home of their union. -/
theorem Column.home (hcol : Column ty sigs t roots) {home : List Symbol} {name : Symbol} {ctors : List (Symbol × List T)}
    (hview : ty.view t = .union home name ctors) {c : Symbol} : c ∈ adtNames roots ↔ .Adt home c ∈ roots := by
  rw [mem_adtNames]
  constructor
  · rintro ⟨home', hmem⟩
    obtain ⟨-, ts, hargs⟩ := hcol _ hmem
    obtain ⟨name', ctors', hview', -⟩ := headArgs_adt hargs
    rw [hview] at hview'
    cases hview'
    exact hmem
  · exact fun hmem => ⟨home, hmem⟩

/-- A complete column has all heads of its type. -/
theorem complete_signature_heads (hsigs : Describes sigs ty.view) (hcol : Column ty sigs t roots)
    {signature : List (Head × ℕ)} (h : complete_signature sigs roots = some signature) :
    (∀ c ∈ signature, Known sigs c.1 ∧ ∃ ts, headArgs ty.view t c.1 = some ts ∧ ts.length = c.2) ∧
      ∀ v, ty.signature.HasTy t v → ∃ c ∈ signature, ∃ vs, v = .node c.1 vs := by
  unfold complete_signature at h
  cases hhead : roots.head? with
  | none =>
    rw [hhead] at h
    cases h
  | some root =>
    have hroot : root ∈ roots := List.mem_of_head? hhead
    obtain ⟨-, ts, hargs⟩ := hcol root hroot
    rw [hhead] at h
    cases root with
    | Tuple n =>
      cases h
      obtain ⟨hview, rfl⟩ := headArgs_tuple hargs
      refine ⟨fun c hc => ?_, fun v hv => ⟨_, List.mem_singleton_self _, ?_⟩⟩
      · rw [List.mem_singleton.1 hc]
        exact ⟨trivial, ts, hargs, rfl⟩
      · obtain ⟨head, vs, us, rfl, hus, -⟩ := exists_head hv (by simp [hview])
        cases head with
        | Tuple m =>
          obtain ⟨hview', rfl⟩ := headArgs_tuple hus
          rw [hview] at hview'
          cases hview'
          exact ⟨vs, rfl⟩
        | _ => simp [headArgs, hview] at hus
    | Bool b =>
      obtain ⟨hview, -⟩ := headArgs_bool hargs
      simp only at h
      split_ifs at h
      cases h
      refine ⟨?_, fun v hv => ?_⟩
      · simp [Known, headArgs, hview]
      · obtain ⟨head, vs, us, rfl, hus, -⟩ := exists_head hv (by simp [hview])
        cases head with
        | Bool b' => cases b' <;> simp
        | _ => simp [headArgs, hview] at hus
    | Int n => cases h
    | Char c => cases h
    | Str s => cases h
    | Nil =>
      obtain ⟨a, hview, -⟩ := headArgs_nil hargs
      simp only at h
      split_ifs at h
      cases h
      refine ⟨?_, fun v hv => ?_⟩
      · simp [Known, headArgs, hview]
      · obtain ⟨head, vs, us, rfl, hus, -⟩ := exists_head hv (by simp [hview])
        cases head with
        | Nil => simp
        | Cons => simp
        | _ => simp [headArgs, hview] at hus
    | Cons =>
      obtain ⟨a, hview, -⟩ := headArgs_cons hargs
      simp only at h
      split_ifs at h
      cases h
      refine ⟨?_, fun v hv => ?_⟩
      · simp [Known, headArgs, hview]
      · obtain ⟨head, vs, us, rfl, hus, -⟩ := exists_head hv (by simp [hview])
        cases head with
        | Nil => simp
        | Cons => simp
        | _ => simp [headArgs, hview] at hus
    | Adt home name =>
      -- The heads are those of the union that the first constructor of the column belongs to.
      obtain ⟨uname, ctors, hview, hunion, hknown⟩ := Column.union hsigs hcol hroot
      simp only [hunion] at h
      split_ifs at h
      cases h
      refine ⟨fun c hc => ?_, fun v hv => ?_⟩
      · obtain ⟨c', hc', rfl⟩ := List.mem_map.1 hc
        obtain ⟨c'', hc'', rfl⟩ := List.mem_map.1 hc'
        exact ⟨(hknown c'' hc'').1, c''.2, headArgs_ctor hview hc'', rfl⟩
      · obtain ⟨head, vs, us, rfl, hus, -⟩ := exists_head hv (by simp [hview])
        cases head with
        | Adt home' c =>
          obtain ⟨uname', ctors', hview', hlookup⟩ := headArgs_adt hus
          rw [hview] at hview'
          cases hview'
          exact ⟨_, List.mem_map_of_mem (List.mem_map_of_mem (mem_of_lookup hlookup)), vs, rfl⟩
        | _ => simp [headArgs, hview] at hus

theorem mem_orWild {w : UPat} {out : List UPat} (h : w ∈ orWild out) : w ∈ out ∨ out = [] := by
  unfold orWild at h
  split_ifs at h with hempty
  · exact .inr (List.isEmpty_iff.1 hempty)
  · exact .inl h

theorem orWild_ne_nil (out : List UPat) : orWild out ≠ [] := by
  unfold orWild
  split_ifs with hempty
  · exact List.cons_ne_nil _ _
  · exact fun hnil => hempty (List.isEmpty_iff.2 hnil)

theorem missing_heads_ne_nil (sigs : Sigs) (roots : List Head) : missing_heads sigs roots ≠ [] := by
  unfold missing_heads
  rcases roots.head? with _ | _ | _ | _ | _ | _ | _ | _ | _
  case some.Adt home name =>
    simp only
    cases sigs.unionOf home name with
    | none => exact List.cons_ne_nil _ _
    | some u => exact orWild_ne_nil _
  all_goals first | exact orWild_ne_nil _ | exact List.cons_ne_nil _ _

/-- What a column misses is a head that is not in it, or nothing can be said: it has no heads, or those
of literals. -/
theorem missing_heads_cases (hsigs : Describes sigs ty.view) (hcol : Column ty sigs t roots)
    (hincomplete : complete_signature sigs roots = none) {w : UPat} (hw : w ∈ missing_heads sigs roots) :
    w = .Wild ∧ (roots = [] ∨ ∃ root ∈ roots, isLiteral root = true) ∨
      ∃ head us, w = .Ctor head (List.replicate us.length .Wild) ∧ headArgs ty.view t head = some us ∧ head ∉ roots := by
  unfold missing_heads at hw
  unfold complete_signature at hincomplete
  cases hhead : roots.head? with
  | none =>
    rw [hhead] at hw
    exact .inl ⟨List.mem_singleton.1 hw, .inl (List.head?_eq_none_iff.1 hhead)⟩
  | some root =>
    have hroot : root ∈ roots := List.mem_of_head? hhead
    obtain ⟨-, ts, hargs⟩ := hcol root hroot
    rw [hhead] at hw hincomplete
    cases root with
    | Tuple n => cases hincomplete
    | Int n => exact .inl ⟨List.mem_singleton.1 hw, .inr ⟨_, hroot, rfl⟩⟩
    | Char c => exact .inl ⟨List.mem_singleton.1 hw, .inr ⟨_, hroot, rfl⟩⟩
    | Str s => exact .inl ⟨List.mem_singleton.1 hw, .inr ⟨_, hroot, rfl⟩⟩
    | Bool b =>
      -- Where nothing was listed the column had both heads and was complete.
      obtain ⟨hview, -⟩ := headArgs_bool hargs
      refine .inr ?_
      simp only [ite_eq_right_iff, reduceCtorEq, imp_false] at hincomplete
      rcases mem_orWild hw with hw | hempty
      · rcases List.mem_append.1 hw with hw | hw
        · split_ifs at hw with hmem
          · cases hw
          · exact ⟨.Bool true, [], List.mem_singleton.1 hw, by simp [headArgs, hview], hmem⟩
        · split_ifs at hw with hmem
          · cases hw
          · exact ⟨.Bool false, [], List.mem_singleton.1 hw, by simp [headArgs, hview], hmem⟩
      · split_ifs at hempty with htrue hfalse
        · exact absurd ⟨htrue, hfalse⟩ hincomplete
        all_goals cases hempty
    | Nil =>
      obtain ⟨a, hview, -⟩ := headArgs_nil hargs
      refine .inr ?_
      simp only [ite_eq_right_iff, reduceCtorEq, imp_false] at hincomplete
      rcases mem_orWild hw with hw | hempty
      · rcases List.mem_append.1 hw with hw | hw
        · split_ifs at hw
          cases hw
        · split_ifs at hw with hmem
          · cases hw
          · exact ⟨.Cons, [a, t], List.mem_singleton.1 hw, by simp [headArgs, hview], hmem⟩
      · split_ifs at hempty with hcons
        · exact absurd ⟨hroot, hcons⟩ hincomplete
        · cases hempty
    | Cons =>
      obtain ⟨a, hview, -⟩ := headArgs_cons hargs
      refine .inr ?_
      simp only [ite_eq_right_iff, reduceCtorEq, imp_false] at hincomplete
      rcases mem_orWild hw with hw | hempty
      · rcases List.mem_append.1 hw with hw | hw
        · split_ifs at hw with hmem
          · cases hw
          · exact ⟨.Nil, [], List.mem_singleton.1 hw, by simp [headArgs, hview], hmem⟩
        · split_ifs at hw
          cases hw
      · split_ifs at hempty with hnil
        · exact absurd ⟨hnil, hroot⟩ hincomplete
        · cases hempty
    | Adt home name =>
      obtain ⟨uname, ctors, hview, hunion, hknown⟩ := Column.union hsigs hcol hroot
      simp only [hunion] at hw hincomplete
      refine .inr ?_
      rcases mem_orWild hw with hw | hempty
      · obtain ⟨c, hc, rfl⟩ := List.mem_map.1 hw
        obtain ⟨hc, hmissing⟩ := List.mem_filter.1 hc
        obtain ⟨c', hc', rfl⟩ := List.mem_map.1 hc
        refine ⟨_, c'.2, rfl, headArgs_ctor hview hc', fun hmem => ?_⟩
        have hname := (Column.home hcol hview).2 hmem
        rw [Bool.not_eq_true', ← Bool.not_eq_true, List.contains_iff_mem] at hmissing
        exact hmissing hname
      · rw [List.map_eq_nil_iff, List.filter_eq_nil_iff] at hempty
        split_ifs at hincomplete with hall
        refine absurd (List.all_eq_true.2 fun c hc => ?_) hall
        simpa using hempty c hc

/-- A value with none of some heads. -/
def MissedBy (roots : List Head) (v : Tree Head S) : Prop := ∀ head vs, v = .node head vs → head ∉ roots

/-- There are literals that none of some heads is. There always is such a string. -/
structure Fresh (heads : List Head) : Prop where
  int : ∃ n, .Int n ∉ heads
  char : ∃ c : Char, .Char [c] ∉ heads

/-- The strings among some heads. -/
def strNames (heads : List Head) : List Str :=
  heads.filterMap fun
    | .Str s => some s
    | _ => none

theorem exists_fresh_str (heads : List Head) : ∃ s : Str, .Str s ∉ heads := by
  obtain ⟨s, hs⟩ := Infinite.exists_notMem_finset ((strNames heads).toFinset : Finset (List Char))
  refine ⟨s, fun hmem => hs ?_⟩
  rw [List.mem_toFinset, strNames, List.mem_filterMap]
  exact ⟨_, hmem, rfl⟩

/-- A pattern for what a column misses is one of values of the type. -/
theorem missing_heads_typed (hsigs : Describes sigs ty.view) (hcol : Column ty sigs t roots)
    (hincomplete : complete_signature sigs roots = none) {w : UPat} (hw : w ∈ missing_heads sigs roots) :
    ty.signature.PatTy t w := by
  rcases missing_heads_cases hsigs hcol hincomplete hw with ⟨rfl, -⟩ | ⟨head, us, rfl, hargs, -⟩
  · trivial
  · exact ⟨us, hargs, Lib.Signature.allPatTy_wilds us⟩

/-- Some value of a pattern for what a column misses has none of the heads of the column. -/
theorem missing_heads_missed (hsigs : Describes sigs ty.view) (hcol : Column ty sigs t roots)
    (hincomplete : complete_signature sigs roots = none) (ht : ty.signature.AllInhabited t) (hfresh : Fresh roots)
    {w : UPat} (hw : w ∈ missing_heads sigs roots) :
    ∃ v, ty.signature.HasTy t v ∧ w.accepts v = true ∧ MissedBy roots v := by
  rcases missing_heads_cases hsigs hcol hincomplete hw with ⟨rfl, hroots⟩ | ⟨head, us, rfl, hargs, hmissing⟩
  · rcases hroots with rfl | ⟨root, hroot, hliteral⟩
    · obtain ⟨v, hv⟩ := ht.self
      exact ⟨v, hv, Lib.Pat.accepts_wild v, fun _ _ _ => List.not_mem_nil⟩
    · obtain ⟨-, ts, hargs⟩ := hcol root hroot
      -- a literal of the type that is not in the column
      have hhead : ∃ head, headArgs ty.view t head = some [] ∧ head ∉ roots := by
        cases root with
        | Int n =>
          obtain ⟨n', hn'⟩ := hfresh.int
          exact ⟨_, by simp [headArgs, (headArgs_int hargs).1], hn'⟩
        | Char c =>
          obtain ⟨c', hc'⟩ := hfresh.char
          exact ⟨_, by simp [headArgs, (headArgs_char hargs).1], hc'⟩
        | Str s =>
          obtain ⟨s', hs'⟩ := exists_fresh_str roots
          exact ⟨_, by simp [headArgs, (headArgs_str hargs).1], hs'⟩
        | _ => cases hliteral
      obtain ⟨head, hargs, hmissing⟩ := hhead
      refine ⟨.node head [], ⟨[], hargs, trivial⟩, Lib.Pat.accepts_wild _, fun head' vs heq => ?_⟩
      cases heq
      exact hmissing
  · obtain ⟨vs, hvs⟩ := Lib.Signature.exists_of_allInhabited fun u hu => ht.part hargs hu
    refine ⟨.node head vs, ⟨us, hargs, hvs⟩, ?_, fun head' vs' heq => ?_⟩
    · rw [Lib.Pat.accepts_ctor, Lib.Signature.length_of_allHaveTy hvs]
      exact ⟨rfl, Lib.Pat.acceptsAll_wilds vs⟩
    · cases heq
      exact hmissing

/-- Without literals all its values have none of them. -/
theorem missing_heads_all_missed (hsigs : Describes sigs ty.view) (hcol : Column ty sigs t roots)
    (hincomplete : complete_signature sigs roots = none) (hliterals : ∀ root ∈ roots, isLiteral root = false)
    {w : UPat} (hw : w ∈ missing_heads sigs roots) {v : Tree Head S} (hv : w.accepts v = true) :
    MissedBy roots v := by
  rcases missing_heads_cases hsigs hcol hincomplete hw with ⟨rfl, hroots⟩ | ⟨head, us, rfl, -, hmissing⟩
  · rcases hroots with rfl | ⟨root, hroot, hliteral⟩
    · exact fun _ _ _ => List.not_mem_nil
    · rw [hliterals root hroot] at hliteral
      cases hliteral
  · obtain ⟨vs, rfl, -⟩ := Lib.Pat.accepts_ctor_iff.1 hv
    intro head' vs' heq
    cases heq
    exact hmissing

end Columns

end IpeLang.Exhaust
