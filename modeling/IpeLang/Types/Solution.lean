import IpeLang.Types.UnifyRun
import IpeLang.Types.Value

/-!
# Solutions

A solution of a store gives every id a finite type that its descriptor allows. A step of the
unifier keeps the solutions: those of the store after it are those of the store before it that give
the two ids of the pair the same type (`Sol.forward`, `Sol.backward`), next to a type for each id
that was minted.

* `Sol ι S ρ`: `ρ` is a solution of `S`;
* `Sol.acyclic`: a store with a solution has no cycle;
* `Solves.backward`: a solution of the final store of a run is one of the first, and makes the
  pending pairs equal.
-/

namespace IpeLang.Types

open IpeLang.Lib Relation

/-- The structure `flat` over the values `ρ` of its children reads `v`. -/
def Reads (ι : Interner) (ρ : VarId → Val) : FlatType → Val → Prop
  | .fn a r, v => v = .fn (ρ a) (ρ r)
  | .con home name args, v => ∃ h, HomeOf ι name home h ∧ v = .con h name (args.map ρ)
  | .unit, v => v = .unit
  | .tuple elems, v => v = .tuple (elems.map ρ)
  | .record fields ext, v => v = .recordOf (fields.mapValues ρ) (ρ ext)
  | .emptyRecord, v => v = .emptyRecord

/-- The descriptor allows the value `v`. -/
def Models (ι : Interner) (ρ : VarId → Val) : Content → Val → Prop
  | .flex, _ => True
  | .rigid, v => v.isAtom = true
  | .super true _, v => v.isAtom = true
  | .super false bounds, v => v.headOk ι bounds = true
  | .struct flat, v => Reads ι ρ flat v

/-- Whether a descriptor is that of a rigid variable, with or without obligations. -/
def Content.isRigid : Content → Bool
  | .rigid => true
  | .super r _ => r
  | _ => false

/-- The values `ρ` solve the store: they agree on each class, its descriptor allows them, and
distinct rigid variables stand for distinct atoms. -/
structure Sol (ι : Interner) (S : Store) (ρ : VarId → Val) : Prop where
  canonical : ∀ v, (ρ v).Canonical
  same : ∀ {v w}, S.Same v w → ρ v = ρ w
  models : ∀ {v d}, S.desc v = some d → Models ι ρ d (ρ v)
  apart : ∀ {v w d d'}, S.desc v = some d → S.desc w = some d' → d.isRigid = true →
    d'.isRigid = true → ρ v = ρ w → S.Same v w

section Basic

variable {ι : Interner} {ρ ρ' : VarId → Val} {S S' : Store} {a b v w c : VarId}
  {ca cb d : Content} {flat fa fb : FlatType} {m : Meet} {x y : Val}

theorem mapValues_congr {fs : SortedMap Symbol VarId} (h : ∀ c ∈ fs.values, ρ c = ρ' c) :
    fs.mapValues ρ = fs.mapValues ρ' := by
  apply SortedMap.ext_get
  intro k
  rw [SortedMap.get?_mapValues, SortedMap.get?_mapValues]
  rcases hk : fs.get? k with _ | c
  · rfl
  · simp [h c (SortedMap.mem_values.2 ⟨k, hk⟩)]

theorem Reads.congr (h : ∀ c ∈ flat.children, ρ c = ρ' c) (hr : Reads ι ρ flat x) :
    Reads ι ρ' flat x := by
  cases flat with
  | fn a r =>
    simp only [FlatType.children, List.mem_cons, List.not_mem_nil, or_false, forall_eq_or_imp,
      forall_eq] at h
    rw [Reads, ← h.1, ← h.2]
    exact hr
  | con home name args =>
    obtain ⟨hm, hh, hx⟩ := hr
    have hargs : args.map ρ = args.map ρ' := List.map_congr_left h
    exact ⟨hm, hh, by rw [hx, hargs]⟩
  | tuple elems =>
    have helems : elems.map ρ = elems.map ρ' := List.map_congr_left h
    rw [Reads, ← helems]
    exact hr
  | record fields ext =>
    simp only [FlatType.children, List.mem_append, List.mem_singleton, or_imp, forall_and,
      forall_eq] at h
    rw [Reads, ← h.2, ← mapValues_congr h.1]
    exact hr
  | unit => exact hr
  | emptyRecord => exact hr

theorem Models.congr (h : ∀ c ∈ d.children, ρ c = ρ' c) (hd : Models ι ρ d x) :
    Models ι ρ' d x := by
  cases d with
  | struct flat => exact Reads.congr h hd
  | super r bounds => cases r <;> exact hd
  | _ => exact hd

/-- The value of a child is smaller. -/
theorem Reads.sizeOf_lt (hr : Reads ι ρ flat x) (hc : c ∈ flat.children) :
    sizeOf (ρ c) < sizeOf x := by
  cases flat with
  | fn a r =>
    rw [Reads] at hr
    rcases hc with _ | ⟨_, _ | ⟨_, ⟨⟩⟩⟩ <;> rw [hr, Val.fn.sizeOf_spec] <;> omega
  | con home name args =>
    obtain ⟨h, -, rfl⟩ := hr
    have : sizeOf (ρ c) < sizeOf (args.map ρ) := List.sizeOf_lt_of_mem (List.mem_map_of_mem hc)
    rw [Val.con.sizeOf_spec]
    omega
  | tuple elems =>
    rw [Reads] at hr
    have : sizeOf (ρ c) < sizeOf (elems.map ρ) := List.sizeOf_lt_of_mem (List.mem_map_of_mem hc)
    rw [hr, Val.tuple.sizeOf_spec]
    omega
  | record fields ext =>
    rw [Reads] at hr
    rw [hr]
    rcases List.mem_append.1 hc with hc | hc
    · refine Val.sizeOf_lt_of_mem_values ?_ _
      rw [SortedMap.values_mapValues]
      exact List.mem_map_of_mem hc
    · rw [List.mem_singleton.1 hc]
      exact Val.sizeOf_lt_recordOf _ _
  | unit => cases hc
  | emptyRecord => cases hc

theorem Sol.sizeOf_lt (h : Sol ι S ρ) {r u : VarId} (hru : Child S r u) :
    sizeOf (ρ r) < sizeOf (ρ u) := by
  obtain ⟨d, hd, c, hc, rfl⟩ := hru
  rw [h.same (S.same_root c).symm]
  cases d with
  | struct flat => exact Reads.sizeOf_lt (h.models hd) hc
  | _ => cases hc

theorem Sol.sizeOf_lt_of_path (h : Sol ι S ρ) {r u : VarId} (hru : TransGen (Child S) r u) :
    sizeOf (ρ r) < sizeOf (ρ u) := by
  induction hru with
  | single hru => exact h.sizeOf_lt hru
  | tail _ hru ih => exact ih.trans (h.sizeOf_lt hru)

/-- A store with a solution has no cycle. -/
theorem Sol.acyclic (h : Sol ι S ρ) : Acyclic S :=
  fun _ hr => lt_irrefl _ (h.sizeOf_lt_of_path hr)

theorem Reads.not_isAtom (hr : Reads ι ρ flat x) : x.isAtom = false := by
  cases flat with
  | con home name args =>
    obtain ⟨h, -, rfl⟩ := hr
    rfl
  | record fields ext =>
    rw [Reads, Val.recordOf] at hr
    split_ifs at hr with hfs
    · rw [hr]
      rfl
    · rw [hr, Val.record_of_nonempty (by simpa using hfs)]
      rfl
  | _ =>
    rw [Reads] at hr
    rw [hr]
    rfl

theorem Models.isAtom (hd : Models ι ρ d x) (hr : d.isRigid = true) : x.isAtom = true := by
  cases d with
  | rigid => exact hd
  | super rigid bounds =>
    obtain rfl : rigid = true := hr
    exact hd
  | _ => cases hr

theorem headOk_of_isAtom {bounds : TyBounds} (h : x.isAtom = true) : x.headOk ι bounds = true := by
  cases x <;> first | rfl | cases h

/-! ### Variables that meet -/

/-- The merged variable allows what both allowed. -/
theorem models_join {keep : Content} (h : joinContent ca cb = some keep) :
    Models ι ρ keep x ↔ Models ι ρ ca x ∧ Models ι ρ cb x := by
  cases ca with
  | flex => cases cb <;> cases h <;> simp [Models]
  | rigid =>
    cases cb with
    | super r bounds =>
      cases r <;> cases h
      exact ⟨fun hx => ⟨hx, headOk_of_isAtom hx⟩, And.left⟩
    | _ => cases h <;> simp [Models]
  | super r₁ b₁ =>
    cases cb with
    | rigid =>
      cases r₁ <;> cases h
      exact ⟨fun hx => ⟨headOk_of_isAtom hx, hx⟩, And.right⟩
    | super r₂ b₂ =>
      simp only [joinContent] at h
      split_ifs at h
      cases h
      cases r₁ <;> cases r₂ <;> simp only [Models, Bool.or_true, Bool.or_false,
        Val.headOk_union, Bool.and_eq_true]
      · exact ⟨fun hx => ⟨headOk_of_isAtom hx, hx⟩, And.right⟩
      · exact ⟨fun hx => ⟨hx, headOk_of_isAtom hx⟩, And.left⟩
      · exact ⟨fun hx => ⟨hx, hx⟩, And.left⟩
    | _ => cases r₁ <;> cases h <;> simp [Models]
  | struct f => cases cb <;> cases h

theorem isRigid_join {keep : Content} (h : joinContent ca cb = some keep) :
    keep.isRigid = (ca.isRigid || cb.isRigid) := by
  cases ca with
  | flex => cases cb <;> cases h <;> simp [Content.isRigid]
  | rigid =>
    cases cb with
    | super r bounds =>
      cases r <;> cases h
      rfl
    | _ => cases h <;> rfl
  | super r₁ b₁ =>
    cases cb with
    | rigid =>
      cases r₁ <;> cases h
      rfl
    | super r₂ b₂ =>
      simp only [joinContent] at h
      split_ifs at h
      cases h
      rfl
    | _ => cases r₁ <;> cases h <;> rfl
  | struct f => cases cb <;> cases h

/-- Two rigid variables do not meet. -/
theorem not_both_rigid_of_join {keep : Content} (h : joinContent ca cb = some keep) :
    ¬ (ca.isRigid = true ∧ cb.isRigid = true) := by
  rintro ⟨h₁, h₂⟩
  cases ca with
  | rigid =>
    cases cb with
    | super r bounds =>
      obtain rfl : r = true := h₂
      cases h
    | rigid => cases h
    | _ => cases h₂
  | super r₁ b₁ =>
    obtain rfl : r₁ = true := h₁
    cases cb with
    | super r₂ b₂ =>
      obtain rfl : r₂ = true := h₂
      simp [joinContent] at h
    | rigid => cases h
    | _ => cases h₂
  | _ => cases h₁

theorem superConcreteOk_con {bounds : TyBounds} {home h : List Symbol} {name : Symbol}
    {args : List VarId} (hok : superConcreteOk ι bounds (.con home name args) = true) :
    (Val.con h name (args.map ρ)).headOk ι bounds = true := by
  rcases home with _ | ⟨s, home⟩
  · rcases args with _ | ⟨c, _ | ⟨c', args⟩⟩ <;>
      simpa [superConcreteOk, bareName, isBuiltinList, Val.headOk, Val.bareName, Val.isList] using hok
  · simp only [superConcreteOk, bareName, isBuiltinList, List.isEmpty_cons, Bool.false_and,
      Bool.false_eq_true, if_false, primSatisfies, Option.any_none, Bool.or_false, Bool.and_eq_true,
      Bool.not_eq_true'] at hok
    simp [Val.headOk, hok]

/-- The structure that a super-typed variable is pinned to is one that it may stand for. -/
theorem headOk_of_superConcreteOk {bounds : TyBounds} (hok : superConcreteOk ι bounds flat = true)
    (hr : Reads ι ρ flat x) : x.headOk ι bounds = true := by
  cases flat with
  | fn a r => cases hok
  | con home name args =>
    obtain ⟨h, -, rfl⟩ := hr
    exact superConcreteOk_con hok
  | record fields ext =>
    rw [Reads, Val.recordOf] at hr
    split_ifs at hr with hfs
    · rw [hr]
      exact hok
    · rw [hr, Val.record_of_nonempty (by simpa using hfs)]
      exact hok
  | _ =>
    rw [Reads] at hr
    rw [hr]
    exact hok

/-! ### Structures that meet -/

/-- The fields that only the second record has, on top of a rest, and the fields of the first on top
of those. -/
theorem record_insertAll {fs only : SortedMap Symbol Val} {n : Val} (hn : n.Canonical)
    (hdisj : ∀ k x, only.get? k = some x → fs.get? k = none) :
    Val.record fs (Val.record only n) = Val.record (fs.insertAll only) n := by
  rw [Val.record, hn.split_record, Val.record]
  refine congrArg (fun es => Val.join es n.split.2) ?_
  refine Row.ext_valuesAt (Row.sorted_extend (Row.sorted_extend hn.sorted _) _)
    (Row.sorted_extend hn.sorted _) fun k => ?_
  rw [Row.valuesAt_extend, Row.valuesAt_extend, Row.valuesAt_extend, SortedMap.get?_insertAll]
  rcases hk : only.get? k with _ | y
  · simp
  · simp [hdisj k y hk]

variable {fs₁ fs₂ : SortedMap Symbol VarId} {ext₁ ext₂ : VarId}

theorem only_mapValues (fs₁ fs₂ : SortedMap Symbol VarId) (ρ : VarId → Val) :
    Row.only (fs₁.mapValues ρ) (fs₂.mapValues ρ) = (Row.only fs₁ fs₂).mapValues ρ := by
  simp only [Row.only, SortedMap.contains_mapValues, SortedMap.filterKeys_mapValues]

theorem insertAll_mapValues (fs only : SortedMap Symbol VarId) (ρ : VarId → Val) :
    (fs.insertAll only).mapValues ρ = (fs.mapValues ρ).insertAll (only.mapValues ρ) := by
  apply SortedMap.ext_get
  intro k
  simp only [SortedMap.get?_mapValues, SortedMap.get?_insertAll]
  cases only.get? k <;> rfl

theorem shared_iff : (∀ p ∈ fs₁.shared fs₂, ρ p.1 = ρ p.2) ↔
    ∀ k x y, (fs₁.mapValues ρ).get? k = some x → (fs₂.mapValues ρ).get? k = some y → x = y := by
  simp only [SortedMap.get?_mapValues, Option.map_eq_some_iff]
  constructor
  · rintro h k x y ⟨c, hc, rfl⟩ ⟨c', hc', rfl⟩
    exact h (c, c') (SortedMap.mem_shared.2 ⟨k, hc, hc'⟩)
  · rintro h ⟨c, c'⟩ hp
    obtain ⟨k, hc, hc'⟩ := SortedMap.mem_shared.1 hp
    exact h k _ _ ⟨c, hc, rfl⟩ ⟨c', hc', rfl⟩

/-- Two records with a common rest `n` read the merged record. -/
theorem record_common {n : Val} (hn : n.Canonical)
    (hshared : ∀ p ∈ fs₁.shared fs₂, ρ p.1 = ρ p.2) :
    Val.record (fs₁.mapValues ρ) (Val.record ((Row.only fs₂ fs₁).mapValues ρ) n) =
        Val.record ((fs₁.insertAll (Row.only fs₂ fs₁)).mapValues ρ) n ∧
      Val.record (fs₂.mapValues ρ) (Val.record ((Row.only fs₁ fs₂).mapValues ρ) n) =
        Val.record ((fs₁.insertAll (Row.only fs₂ fs₁)).mapValues ρ) n := by
  have h₁ : Val.record (fs₁.mapValues ρ) (Val.record ((Row.only fs₂ fs₁).mapValues ρ) n) =
      Val.record ((fs₁.insertAll (Row.only fs₂ fs₁)).mapValues ρ) n := by
    rw [insertAll_mapValues]
    refine record_insertAll hn fun k x hx => ?_
    rw [← only_mapValues, SortedMap.get?_filterKeys] at hx
    split_ifs at hx with hk
    simpa [SortedMap.contains] using hk
  refine ⟨h₁, Eq.trans ?_ h₁⟩
  symm
  rw [Val.record_eq_record (hn.record _) (hn.record _)]
  refine ⟨shared_iff.1 hshared, n, hn, ?_, ?_⟩ <;> rw [only_mapValues]

/-- The values `ρ` below `n`, and the values `vs` from there on. -/
def extendBy (n : ℕ) (ρ : VarId → Val) (vs : List Val) (v : VarId) : Val :=
  if v < n then ρ v else vs.getD (v - n) .unit

theorem extendBy_of_lt {n : ℕ} {vs : List Val} (h : v < n) : extendBy n ρ vs v = ρ v := if_pos h

theorem extendBy_add (n : ℕ) (ρ : VarId → Val) (vs : List Val) (i : ℕ) :
    extendBy n ρ vs (n + i) = vs.getD i .unit := by simp [extendBy]

/-- What a value weighs: more than two rows of fewer fields and their common rest. -/
noncomputable def weight (x : Val) : ℕ := 4 ^ sizeOf x

theorem weight_lt {y : Val} (h : sizeOf y < sizeOf x) : weight y < weight x :=
  Nat.pow_lt_pow_right (by decide) h

theorem weight_rows {n y z : Val} (hn : sizeOf n < sizeOf y) (hy : sizeOf y < sizeOf x)
    (hz : sizeOf z < sizeOf x) : weight n + weight y + weight z < weight x := by
  obtain ⟨s, hs⟩ : ∃ s, sizeOf x = s + 2 := ⟨sizeOf x - 2, by omega⟩
  have h₁ : weight n ≤ 4 ^ s := Nat.pow_le_pow_right (by decide) (by omega)
  have h₂ : weight y ≤ 4 ^ (s + 1) := Nat.pow_le_pow_right (by decide) (by omega)
  have h₃ : weight z ≤ 4 ^ (s + 1) := Nat.pow_le_pow_right (by decide) (by omega)
  have hpos : 0 < 4 ^ s := Nat.pow_pos (by decide)
  rw [show weight x = 4 ^ (s + 1 + 1) by rw [weight, hs]]
  rw [pow_succ] at h₂ h₃ ⊢
  rw [pow_succ]
  omega

/-- What a step leaves behind over the values `ρ`, the value `x` being that of the merged class. -/
structure Meet.Holds (ι : Interner) (n : ℕ) (m : Meet) (ρ : VarId → Val) (x : Val) : Prop where
  keep : Models ι ρ m.keep x
  minted : ∀ i d, m.minted[i]? = some d → Models ι ρ d (ρ (n + i))
  pairs : ∀ p ∈ m.pairs, ρ p.1 = ρ p.2

/-- No record without fields is open. -/
def TailOk (S : Store) : Content → Prop
  | .struct (.record fields ext) => fields.isEmpty = true → isClosed S ext = true
  | _ => True

theorem insertAll_of_isEmpty {K V : Type} [LinearOrder K] {m only : SortedMap K V}
    (h : only.isEmpty = true) : m.insertAll only = m := by
  apply SortedMap.ext_get
  intro k
  rw [SortedMap.get?_insertAll, SortedMap.isEmpty_iff.1 h k]
  rfl

theorem recordOf_of_nonempty {fs : SortedMap Symbol Val} (h : fs.isEmpty = false) (v : Val) :
    Val.recordOf fs v = .record fs v := by
  rw [Val.recordOf, h]
  rfl

theorem isEmpty_insertAll {K V : Type} [LinearOrder K] {m only : SortedMap K V} :
    (m.insertAll only).isEmpty = true ↔ m.isEmpty = true ∧ only.isEmpty = true := by
  simp only [SortedMap.isEmpty_iff, SortedMap.get?_insertAll, Option.or_eq_none_iff, forall_and]
  exact and_comm

/-- Maps that have no fields of their own beyond an empty one are empty. -/
theorem isEmpty_of_only {K V : Type} [LinearOrder K] {fs fs' : SortedMap K V}
    (h : fs.isEmpty = true) (h' : (Row.only fs' fs).isEmpty = true) : fs'.isEmpty = true := by
  rw [SortedMap.isEmpty_iff] at *
  intro k
  have := h' k
  rw [SortedMap.get?_filterKeys, SortedMap.contains, h k] at this
  simpa using this

/-- Two open records read the value of the merged one when their extensions have the fields that
only the other record has over a common rest. -/
theorem rows_reads {n : Val} (hn : n.Canonical) (hshared : ∀ p ∈ fs₁.shared fs₂, ρ p.1 = ρ p.2)
    (h₁ : ρ ext₁ = .record ((Row.only fs₂ fs₁).mapValues ρ) n)
    (h₂ : ρ ext₂ = .record ((Row.only fs₁ fs₂).mapValues ρ) n)
    (hx : x = .recordOf ((fs₁.insertAll (Row.only fs₂ fs₁)).mapValues ρ) n)
    (t₁ : fs₁.isEmpty = true → (Row.only fs₂ fs₁).isEmpty = true)
    (t₂ : fs₂.isEmpty = true → (Row.only fs₁ fs₂).isEmpty = true) :
    Reads ι ρ (.record fs₁ ext₁) x ∧ Reads ι ρ (.record fs₂ ext₂) x := by
  obtain ⟨hl, hr⟩ := record_common hn hshared
  rw [Reads, Reads, h₁, h₂, hx]
  by_cases he₁ : fs₁.isEmpty = true
  · have ho₂ := t₁ he₁
    have he₂ := isEmpty_of_only he₁ ho₂
    have ho₁ := t₂ he₂
    rw [hn.record_of_isEmpty (by simpa using ho₂), hn.record_of_isEmpty (by simpa using ho₁),
      insertAll_of_isEmpty ho₂]
    simp [Val.recordOf, he₁, he₂]
  · have he₂ : ¬ fs₂.isEmpty = true := fun h => he₁ (isEmpty_of_only h (t₂ h))
    have hm : ¬ (fs₁.insertAll (Row.only fs₂ fs₁)).isEmpty = true := fun h =>
      he₁ (isEmpty_insertAll.1 h).1
    rw [recordOf_of_nonempty (by simpa using hm), recordOf_of_nonempty (by simpa using he₁),
      recordOf_of_nonempty (by simpa using he₂), hl, hr]
    exact ⟨rfl, rfl⟩

theorem map_eq_map_iff {as bs : List VarId} (hlen : as.length = bs.length) :
    as.map ρ = bs.map ρ ↔ ∀ p ∈ as.zip bs, ρ p.1 = ρ p.2 := by
  induction as generalizing bs with
  | nil => simp [List.length_eq_zero_iff.1 hlen.symm]
  | cons a as ih =>
    cases bs with
    | nil => cases hlen
    | cons b bs => simp [ih (by simpa using hlen)]

theorem isEmpty_only_of_closed {v : VarId} {fs fs' : SortedMap Symbol VarId}
    (ht : TailOk S (.struct (.record fs v)))
    (hc : isClosed S v = true → (Row.only fs' fs).isEmpty = true) :
    fs.isEmpty = true → (Row.only fs' fs).isEmpty = true := fun h => hc (ht h)

/-- A value of two merged structures is a value of each of them. -/
theorem FlatMeet.backward (h : FlatMeet ι S fa fb m) (hx : m.Holds ι S.size ρ x)
    (hta : TailOk S (.struct fa)) (htb : TailOk S (.struct fb))
    (hcan : ∀ c, (ρ c).Canonical) : Reads ι ρ fa x ∧ Reads ι ρ fb x := by
  cases h with
  | unit => exact ⟨hx.keep, hx.keep⟩
  | emptyRecord => exact ⟨hx.keep, hx.keep⟩
  | fn =>
    obtain ⟨hk, -, hp⟩ := hx
    simp only [List.mem_cons, List.not_mem_nil, or_false, forall_eq_or_imp, forall_eq] at hp
    rw [Models, Reads] at hk
    exact ⟨hk, by rw [Reads, hk, hp.1, hp.2]⟩
  | @con m₁ m₂ n as₁ as₂ hc hlen =>
    obtain ⟨⟨h, hh, hx⟩, -, hp⟩ := hx
    have hmap := (map_eq_map_iff hlen).2 hp
    obtain ⟨hh₁, hh₂⟩ := (homeOf_merged hc).1 hh
    exact ⟨⟨h, hh₁, hx⟩, h, hh₂, hmap ▸ hx⟩
  | @tuple es₁ es₂ hlen =>
    obtain ⟨hk, -, hp⟩ := hx
    have hmap := (map_eq_map_iff hlen).2 hp
    rw [Models, Reads] at hk
    exact ⟨hk, by rw [Reads, ← hmap, hk]⟩
  | @record fs₁ ext₁ fs₂ ext₂ hc₂ hc₁ =>
    have t₁ := isEmpty_only_of_closed hta hc₁
    have t₂ := isEmpty_only_of_closed htb hc₂
    obtain ⟨hk, hmint, hp⟩ := hx
    have hshared : ∀ p ∈ fs₁.shared fs₂, ρ p.1 = ρ p.2 := fun p h =>
      hp p (mem_rowsMeet_pairs (List.mem_reverse.2 h))
    have hmap : ∀ {only : SortedMap Symbol VarId} {v : VarId} {y : Val}, only.isEmpty = false →
        Models ι ρ (.struct (.record only v)) y → y = .record (only.mapValues ρ) (ρ v) := by
      intro only v y he hy
      rw [← recordOf_of_nonempty (by simpa using he)]
      exact hy
    have hnone : ∀ {only : SortedMap Symbol VarId} {v : VarId}, only.isEmpty = true →
        ρ v = .record (only.mapValues ρ) (ρ v) := fun he =>
      ((hcan _).record_of_isEmpty (by simpa using he)).symm
    rcases e₁ : (Row.only fs₁ fs₂).isEmpty with _ | _ <;>
      rcases e₂ : (Row.only fs₂ fs₁).isEmpty with _ | _ <;>
      simp only [rowsMeet, e₁, e₂, List.mem_cons, forall_eq_or_imp] at hk hmint hp
    · exact rows_reads (hcan S.size) hshared (hp.1.trans (hmap e₂ (hmint 1 _ rfl)))
        (hp.2.1.trans (hmap e₁ (hmint 2 _ rfl))) hk t₁ t₂
    · exact rows_reads (hcan ext₁) hshared (hnone e₂) (hp.1.trans (hmap e₁ (hmint 0 _ rfl))) hk t₁ t₂
    · exact rows_reads (hcan ext₂) hshared (hp.1.trans (hmap e₂ (hmint 0 _ rfl))) (hnone e₁) hk t₁ t₂
    · refine rows_reads (hcan ext₁) hshared (hnone e₂) (hp.1 ▸ hnone e₁) ?_ t₁ t₂
      rw [insertAll_of_isEmpty e₂]
      exact hk

/-- Two records with one value have a common rest. -/
theorem rows_split (hcan : ∀ c, (ρ c).Canonical) (h₁ : Reads ι ρ (.record fs₁ ext₁) x)
    (h₂ : Reads ι ρ (.record fs₂ ext₂) x) :
    (∀ p ∈ fs₁.shared fs₂, ρ p.1 = ρ p.2) ∧ ∃ n : Val, n.Canonical ∧
      ρ ext₁ = .record ((Row.only fs₂ fs₁).mapValues ρ) n ∧
      ρ ext₂ = .record ((Row.only fs₁ fs₂).mapValues ρ) n ∧
      x = .recordOf ((fs₁.insertAll (Row.only fs₂ fs₁)).mapValues ρ) n := by
  rw [Reads] at h₁ h₂
  have honly : ∀ {fs fs' : SortedMap Symbol VarId}, fs.isEmpty = true →
      (Row.only fs fs').isEmpty = true := by
    intro fs fs' h
    rw [SortedMap.isEmpty_iff] at h ⊢
    intro k
    rw [SortedMap.get?_filterKeys, h k, ite_self]
  by_cases he₁ : fs₁.isEmpty = true
  · by_cases he₂ : fs₂.isEmpty = true
    · rw [Val.recordOf, if_pos (by simpa using he₁)] at h₁
      rw [Val.recordOf, if_pos (by simpa using he₂)] at h₂
      refine ⟨?_, ρ ext₁, hcan _, ?_, ?_, ?_⟩
      · rintro ⟨c, c'⟩ hp
        obtain ⟨k, hk, -⟩ := SortedMap.mem_shared.1 hp
        rw [SortedMap.isEmpty_iff.1 he₁ k] at hk
        cases hk
      · rw [(hcan ext₁).record_of_isEmpty (by simpa using honly he₂)]
      · rw [(hcan ext₁).record_of_isEmpty (by simpa using honly he₁)]
        exact (Val.bare.inj (h₁.symm.trans h₂)).symm
      · rw [insertAll_of_isEmpty (honly he₂), Val.recordOf, if_pos (by simpa using he₁)]
        exact h₁
    · rw [Val.recordOf, if_pos (by simpa using he₁)] at h₁
      rw [recordOf_of_nonempty (by simpa using he₂), Val.record_of_nonempty (by simpa using he₂)]
        at h₂
      cases h₁.symm.trans h₂
  · by_cases he₂ : fs₂.isEmpty = true
    · rw [Val.recordOf, if_pos (by simpa using he₂)] at h₂
      rw [recordOf_of_nonempty (by simpa using he₁), Val.record_of_nonempty (by simpa using he₁)]
        at h₁
      cases h₁.symm.trans h₂
    · rw [recordOf_of_nonempty (by simpa using he₁)] at h₁
      rw [recordOf_of_nonempty (by simpa using he₂)] at h₂
      obtain ⟨hshared, n, hn, hv, hw⟩ :=
        (Val.record_eq_record (hcan ext₁) (hcan ext₂)).1 (h₁.symm.trans h₂)
      rw [only_mapValues] at hv hw
      refine ⟨shared_iff.2 hshared, n, hn, hv, hw, ?_⟩
      rw [recordOf_of_nonempty, h₁, hv, (record_common hn (shared_iff.2 hshared)).1]
      rw [SortedMap.isEmpty_mapValues, Bool.eq_false_iff]
      exact fun h => he₁ (isEmpty_insertAll.1 h).1

/-- Values for the ids that two records mint. -/
theorem rows_forward {k : ℕ} {n : Val} (hn : n.Canonical) (hcan : ∀ c, (ρ c).Canonical)
    (hfs₁ : ∀ c ∈ fs₁.values, c < k) (hfs₂ : ∀ c ∈ fs₂.values, c < k) (he₁ : ext₁ < k)
    (he₂ : ext₂ < k) (hshared : ∀ p ∈ fs₁.shared fs₂, ρ p.1 = ρ p.2)
    (h₁ : ρ ext₁ = .record ((Row.only fs₂ fs₁).mapValues ρ) n)
    (h₂ : ρ ext₂ = .record ((Row.only fs₁ fs₂).mapValues ρ) n)
    (hx : x = .recordOf ((fs₁.insertAll (Row.only fs₂ fs₁)).mapValues ρ) n)
    (hx₁ : sizeOf (ρ ext₁) < sizeOf x) (hx₂ : sizeOf (ρ ext₂) < sizeOf x) :
    let m := rowsMeet k fs₁ ext₁ ext₂ (Row.only fs₁ fs₂) (Row.only fs₂ fs₁) (fs₁.shared fs₂).reverse
    ∃ vs : List Val, vs.length = m.minted.length ∧ (∀ v ∈ vs, v.Canonical) ∧
      m.Holds ι k (extendBy k ρ vs) x ∧ (vs.map weight).sum < weight x := by
  have hσ : ∀ vs : List Val, ∀ {c : VarId}, c < k → extendBy k ρ vs c = ρ c := fun vs _ hc =>
    extendBy_of_lt hc
  have ho₁ : ∀ c ∈ (Row.only fs₁ fs₂).values, c < k := filterKeys_below hfs₁
  have ho₂ : ∀ c ∈ (Row.only fs₂ fs₁).values, c < k := filterKeys_below hfs₂
  have hm : ∀ c ∈ (fs₁.insertAll (Row.only fs₂ fs₁)).values, c < k := by
    intro c hc
    obtain ⟨j, hj⟩ := SortedMap.mem_values.1 hc
    rw [SortedMap.get?_insertAll, Option.or_eq_some_iff] at hj
    rcases hj with hj | ⟨-, hj⟩
    · exact ho₂ c (SortedMap.mem_values.2 ⟨j, hj⟩)
    · exact hfs₁ c (SortedMap.mem_values.2 ⟨j, hj⟩)
  have hmap : ∀ {fs : SortedMap Symbol VarId}, (∀ c ∈ fs.values, c < k) → ∀ vs : List Val,
      fs.mapValues (extendBy k ρ vs) = fs.mapValues ρ := fun h vs =>
    mapValues_congr fun c hc => hσ vs (h c hc)
  have hsh : ∀ vs : List Val, ∀ p ∈ (fs₁.shared fs₂).reverse,
      extendBy k ρ vs p.1 = extendBy k ρ vs p.2 := by
    rintro vs ⟨c, c'⟩ hp
    have hp' := List.mem_reverse.1 hp
    obtain ⟨j, hj, hj'⟩ := SortedMap.mem_shared.1 hp'
    rw [hσ vs (hfs₁ c (SortedMap.mem_values.2 ⟨j, hj⟩)),
      hσ vs (hfs₂ c' (SortedMap.mem_values.2 ⟨j, hj'⟩))]
    exact hshared _ hp'
  -- what is minted for a side reads the extension of the other side
  have hreads : ∀ {only : SortedMap Symbol VarId} {v : VarId} {y : Val} (vs : List Val),
      only.isEmpty = false → (∀ c ∈ only.values, c < k) → extendBy k ρ vs v = n →
      y = .record (only.mapValues ρ) n →
      Models ι (extendBy k ρ vs) (.struct (.record only v)) y := by
    intro only v y vs he hb hv hy
    rw [Models, Reads, hmap hb, hv, recordOf_of_nonempty (by simpa using he)]
    exact hy
  have hkeep : ∀ {v : VarId} (vs : List Val), extendBy k ρ vs v = n →
      Models ι (extendBy k ρ vs)
        (.struct (.record (fs₁.insertAll (Row.only fs₂ fs₁)) v)) x := by
    intro v vs hv
    rw [Models, Reads, hmap hm, hv]
    exact hx
  have hpos : 0 < weight x := Nat.pow_pos (by decide)
  intro m
  obtain ⟨m', hm'⟩ : ∃ m', m' = m := ⟨_, rfl⟩
  rw [← hm']
  -- Three ids are minted if both sides have fields of their own, one if one has, and else none.
  rcases e₁ : (Row.only fs₁ fs₂).isEmpty with _ | _ <;>
    rcases e₂ : (Row.only fs₂ fs₁).isEmpty with _ | _ <;>
    simp only [m, rowsMeet, e₁, e₂] at hm' <;> subst hm'
  · refine ⟨[n, ρ ext₁, ρ ext₂], rfl, by simp [hn, hcan], ⟨hkeep _ (extendBy_add k ρ _ 0), ?_, ?_⟩, ?_⟩
    · rintro (_ | _ | _ | i) d hd <;> cases hd
      · trivial
      · exact hreads _ e₂ ho₂ (extendBy_add k ρ _ 0) ((extendBy_add k ρ _ 1).trans h₁)
      · exact hreads _ e₁ ho₁ (extendBy_add k ρ _ 0) ((extendBy_add k ρ _ 2).trans h₂)
    · simp only [List.mem_cons, forall_eq_or_imp]
      exact ⟨(hσ _ he₁).trans (extendBy_add k ρ [n, ρ ext₁, ρ ext₂] 1).symm,
        (hσ _ he₂).trans (extendBy_add k ρ [n, ρ ext₁, ρ ext₂] 2).symm, hsh _⟩
    · have hlt : sizeOf n < sizeOf (ρ ext₁) := by
        rw [h₁]
        exact Val.sizeOf_lt_record (by simpa using e₂) n
      simpa [← Nat.add_assoc] using weight_rows hlt hx₁ hx₂
  · have hn₁ : ρ ext₁ = n := h₁.trans (hn.record_of_isEmpty (by simpa using e₂))
    refine ⟨[ρ ext₂], rfl, by simp [hcan], ⟨hkeep _ ((hσ _ he₁).trans hn₁), ?_, ?_⟩, ?_⟩
    · rintro (_ | i) d hd <;> cases hd
      exact hreads _ e₁ ho₁ ((hσ _ he₁).trans hn₁) ((extendBy_add k ρ _ 0).trans h₂)
    · simp only [List.mem_cons, forall_eq_or_imp]
      exact ⟨(hσ _ he₂).trans (extendBy_add k ρ [ρ ext₂] 0).symm, hsh _⟩
    · simpa using weight_lt hx₂
  · have hn₂ : ρ ext₂ = n := h₂.trans (hn.record_of_isEmpty (by simpa using e₁))
    refine ⟨[ρ ext₁], rfl, by simp [hcan], ⟨hkeep _ ((hσ _ he₂).trans hn₂), ?_, ?_⟩, ?_⟩
    · rintro (_ | i) d hd <;> cases hd
      exact hreads _ e₂ ho₂ ((hσ _ he₂).trans hn₂) ((extendBy_add k ρ _ 0).trans h₁)
    · simp only [List.mem_cons, forall_eq_or_imp]
      exact ⟨(hσ _ he₁).trans (extendBy_add k ρ [ρ ext₁] 0).symm, hsh _⟩
    · simpa using weight_lt hx₁
  · have hn₁ : ρ ext₁ = n := h₁.trans (hn.record_of_isEmpty (by simpa using e₂))
    have hn₂ : ρ ext₂ = n := h₂.trans (hn.record_of_isEmpty (by simpa using e₁))
    refine ⟨[], rfl, by simp, ⟨?_, by simp, ?_⟩, hpos⟩
    · have := hkeep (v := ext₁) [] ((hσ _ he₁).trans hn₁)
      rwa [insertAll_of_isEmpty e₂] at this
    · simp only [List.mem_cons, forall_eq_or_imp]
      exact ⟨((hσ _ he₁).trans hn₁).trans ((hσ _ he₂).trans hn₂).symm, hsh _⟩

/-- The value of two structures that meet is one of the merged structure, over suitable values of
the minted ids. -/
theorem FlatMeet.forward (h : FlatMeet ι S fa fb m) (hcan : ∀ c, (ρ c).Canonical)
    (ha : Reads ι ρ fa x) (hb : Reads ι ρ fb x) (hsa : ∀ c ∈ fa.children, c < S.size)
    (hsb : ∀ c ∈ fb.children, c < S.size) :
    ∃ vs : List Val, vs.length = m.minted.length ∧ (∀ v ∈ vs, v.Canonical) ∧
      m.Holds ι S.size (extendBy S.size ρ vs) x ∧ (vs.map weight).sum < weight x := by
  have hpos : 0 < weight x := Nat.pow_pos (by decide)
  have hlt : ∀ vs, ∀ c ∈ fa.children, extendBy S.size ρ vs c = ρ c := fun vs c hc =>
    extendBy_of_lt (hsa c hc)
  have hlt' : ∀ vs, ∀ c ∈ fb.children, extendBy S.size ρ vs c = ρ c := fun vs c hc =>
    extendBy_of_lt (hsb c hc)
  have ha' : ∀ vs, Reads ι (extendBy S.size ρ vs) fa x := fun vs =>
    ha.congr fun c hc => (hlt vs c hc).symm
  have hb' : ∀ vs, Reads ι (extendBy S.size ρ vs) fb x := fun vs =>
    hb.congr fun c hc => (hlt' vs c hc).symm
  cases h with
  | unit => exact ⟨[], rfl, by simp, ⟨ha, by simp, by simp⟩, hpos⟩
  | emptyRecord => exact ⟨[], rfl, by simp, ⟨ha, by simp, by simp⟩, hpos⟩
  | fn =>
    refine ⟨[], rfl, by simp, ⟨ha' [], by simp, ?_⟩, hpos⟩
    have := (ha' []).symm.trans (hb' [])
    simpa using this
  | @con m₁ m₂ n as₁ as₂ hc hlen =>
    refine ⟨[], rfl, by simp, ⟨?_, by simp, ?_⟩, hpos⟩
    · obtain ⟨h₁, hh₁, hx₁⟩ := ha' []
      obtain ⟨h₂, hh₂, hx₂⟩ := hb' []
      obtain ⟨rfl, -, -⟩ := Val.con.inj (hx₁.symm.trans hx₂)
      exact ⟨h₁, (homeOf_merged hc).2 ⟨hh₁, hh₂⟩, hx₁⟩
    · obtain ⟨h₁, -, hx₁⟩ := ha' []
      obtain ⟨h₂, -, hx₂⟩ := hb' []
      exact (map_eq_map_iff hlen).1 (Val.con.inj (hx₁.symm.trans hx₂)).2.2
  | @tuple es₁ es₂ hlen =>
    refine ⟨[], rfl, by simp, ⟨ha' [], by simp, ?_⟩, hpos⟩
    exact (map_eq_map_iff hlen).1 (Val.tuple.inj ((ha' []).symm.trans (hb' [])))
  | @record fs₁ ext₁ fs₂ ext₂ _ _ =>
    obtain ⟨hshared, n, hn, h₁, h₂, hx⟩ := rows_split hcan ha hb
    simp only [FlatType.children, List.mem_append, List.mem_singleton, or_imp, forall_and,
      forall_eq] at hsa hsb
    exact rows_forward hn hcan hsa.1 hsb.1 hsa.2 hsb.2 hshared h₁ h₂ hx
      (ha.sizeOf_lt (by simp [FlatType.children])) (hb.sizeOf_lt (by simp [FlatType.children]))

/-! ### Descriptors that meet -/

theorem Meets.backward (h : Meets ι S ca cb m) (hx : m.Holds ι S.size ρ x) (hta : TailOk S ca)
    (htb : TailOk S cb) (hcan : ∀ c, (ρ c).Canonical) : Models ι ρ ca x ∧ Models ι ρ cb x := by
  cases h with
  | bindLeft => exact ⟨trivial, hx.keep⟩
  | bindRight => exact ⟨hx.keep, trivial⟩
  | pinLeft hok => exact ⟨headOk_of_superConcreteOk hok hx.keep, hx.keep⟩
  | pinRight hok => exact ⟨hx.keep, headOk_of_superConcreteOk hok hx.keep⟩
  | flat hf => exact hf.backward hx hta htb hcan
  | join _ _ hj => exact (models_join hj).1 hx.keep

theorem Meets.forward (h : Meets ι S ca cb m) (hcan : ∀ c, (ρ c).Canonical)
    (ha : Models ι ρ ca x) (hb : Models ι ρ cb x) (hsa : ∀ c ∈ ca.children, c < S.size)
    (hsb : ∀ c ∈ cb.children, c < S.size) :
    ∃ vs : List Val, vs.length = m.minted.length ∧ (∀ v ∈ vs, v.Canonical) ∧
      m.Holds ι S.size (extendBy S.size ρ vs) x ∧ (vs.map weight).sum < weight x := by
  have hpos : 0 < weight x := Nat.pow_pos (by decide)
  have hnone : ∀ {d : Content}, Models ι ρ d x → (∀ c ∈ d.children, c < S.size) →
      Meet.Holds ι S.size ⟨d, [], []⟩ (extendBy S.size ρ []) x := fun hd hs =>
    ⟨hd.congr fun c hc => (extendBy_of_lt (hs c hc)).symm, by simp, by simp⟩
  cases h with
  | bindLeft => exact ⟨[], rfl, by simp, hnone hb hsb, hpos⟩
  | bindRight => exact ⟨[], rfl, by simp, hnone ha hsa, hpos⟩
  | pinLeft _ => exact ⟨[], rfl, by simp, hnone hb hsb, hpos⟩
  | pinRight _ => exact ⟨[], rfl, by simp, hnone ha hsa, hpos⟩
  | flat hf => exact hf.forward hcan ha hb hsa hsb
  | join hca hcb hj =>
    refine ⟨[], rfl, by simp, hnone ((models_join hj).2 ⟨ha, hb⟩) ?_, hpos⟩
    rw [Content.children_of_not_isStructure (joinContent_isStructure hj)]
    simp

/-- A merged class is rigid when one of the two was, and not both were. -/
theorem Meets.isRigid (h : Meets ι S ca cb m) : m.keep.isRigid = (ca.isRigid || cb.isRigid) ∧
    ¬ (ca.isRigid = true ∧ cb.isRigid = true) ∧ ∀ d ∈ m.minted, d.isRigid = false := by
  cases h with
  | flat hf =>
    refine ⟨?_, by simp [Content.isRigid], ?_⟩
    · cases hf <;> first | rfl | (unfold rowsMeet; split <;> rfl)
    · cases hf with
      | record =>
        unfold rowsMeet
        split <;> simp [Content.isRigid]
      | _ => exact fun d hd => absurd hd List.not_mem_nil
  | join _ _ hj => exact ⟨isRigid_join hj, not_both_rigid_of_join hj, by simp⟩
  | _ => simp [Content.isRigid]

/-! ### Stores -/

/-- No record of the store is without fields and open. -/
def TailsOk (S : Store) : Prop := ∀ v d, S.desc v = some d → TailOk S d

section Step

variable (hmerge : S.Merge S' a b m.keep m.minted) (ha : S.desc a = some ca)
  (hb : S.desc b = some cb) (hmeet : Meets ι S ca cb m)
include hmerge ha hb hmeet

/-- A rigid class stays rigid. -/
theorem rigid_of_before (hd : S.desc v = some d) (hr : d.isRigid = true) :
    ∃ d', S'.desc v = some d' ∧ d'.isRigid = true := by
  have hv := ClassStore.lt_of_desc hd
  have hrig := hmeet.isRigid.1
  by_cases hva : S.Same v a
  · cases (hva.desc_eq.symm.trans hd).symm.trans ha
    exact ⟨_, hmerge.desc_merged hv (Or.inl hva), by rw [hrig, hr, Bool.true_or]⟩
  by_cases hvb : S.Same v b
  · cases (hvb.desc_eq.symm.trans hd).symm.trans hb
    exact ⟨_, hmerge.desc_merged hv (Or.inr hvb), by rw [hrig, hr, Bool.or_true]⟩
  · exact ⟨d, (hmerge.desc_of_ne hv hva hvb).trans hd, hr⟩

/-- A rigid class holds a class that was rigid. -/
theorem rigid_of_after (hd : S'.desc v = some d) (hr : d.isRigid = true) :
    ∃ u d', S.desc u = some d' ∧ d'.isRigid = true ∧ S'.Same v u := by
  obtain ⟨hrig, -, hmint⟩ := hmeet.isRigid
  by_cases hv : v < S.size
  · by_cases hc : S.Same v a ∨ S.Same v b
    · cases (hmerge.desc_merged hv hc).symm.trans hd
      rw [hrig, Bool.or_eq_true] at hr
      have hsame : S'.Same v a := hmerge.same_iff.2
        (Or.inr ⟨hc, Or.inl (ClassStore.Same.refl S a)⟩)
      rcases hr with hr | hr
      · exact ⟨a, ca, ha, hr, hsame⟩
      · exact ⟨b, cb, hb, hr, hsame.trans hmerge.same_ab⟩
    · have hc' := not_or.1 hc
      rw [hmerge.desc_of_ne hv hc'.1 hc'.2] at hd
      exact ⟨v, d, hd, hr, ClassStore.Same.refl _ v⟩
  · obtain ⟨i, rfl⟩ := Nat.exists_eq_add_of_le (not_lt.1 hv)
    rw [hmerge.desc_new] at hd
    rw [hmint d (List.mem_of_getElem? hd)] at hr
    cases hr

/-- A solution after a step is one before it, if it makes the pairs that are left equal. -/
theorem Sol.backward (hta : TailOk S ca) (htb : TailOk S cb) (h : Sol ι S' ρ)
    (hpairs : ∀ p ∈ m.pairs, ρ p.1 = ρ p.2) : Sol ι S ρ ∧ ρ a = ρ b := by
  have halt := ClassStore.lt_of_desc ha
  have hab : ρ a = ρ b := h.same hmerge.same_ab
  have hkeep := h.models (hmerge.desc_merged halt (Or.inl (ClassStore.Same.refl S a)))
  have hholds : m.Holds ι S.size ρ (ρ a) :=
    ⟨hkeep, fun i d hd => h.models ((hmerge.desc_new i).trans hd), hpairs⟩
  obtain ⟨hma, hmb⟩ := hmeet.backward hholds hta htb h.canonical
  obtain ⟨-, hnot, -⟩ := hmeet.isRigid
  refine ⟨⟨h.canonical, fun hvw => h.same (hmerge.same_mono hvw), fun {v d} hd => ?_,
    fun {v w d d'} hv hw hr hr' heq => ?_⟩, hab⟩
  · have hv := ClassStore.lt_of_desc hd
    by_cases hva : S.Same v a
    · cases (hva.desc_eq.symm.trans hd).symm.trans ha
      rw [h.same (hmerge.same_mono hva)]
      exact hma
    by_cases hvb : S.Same v b
    · cases (hvb.desc_eq.symm.trans hd).symm.trans hb
      rw [h.same (hmerge.same_mono hvb), ← hab]
      exact hmb
    · exact h.models ((hmerge.desc_of_ne hv hva hvb).trans hd)
  · obtain ⟨_, hv', hrv⟩ := rigid_of_before hmerge ha hb hmeet hv hr
    obtain ⟨_, hw', hrw⟩ := rigid_of_before hmerge ha hb hmeet hw hr'
    rcases hmerge.same_iff.1 (h.apart hv' hw' hrv hrw heq) with hs | ⟨hva | hvb, hwa | hwb⟩
    · exact hs
    · exact hva.trans hwa.symm
    · cases (hva.desc_eq.symm.trans hv).symm.trans ha
      cases (hwb.desc_eq.symm.trans hw).symm.trans hb
      exact absurd ⟨hr, hr'⟩ hnot
    · cases (hvb.desc_eq.symm.trans hv).symm.trans hb
      cases (hwa.desc_eq.symm.trans hw).symm.trans ha
      exact absurd ⟨hr', hr⟩ hnot
    · exact hvb.trans hwb.symm

/-- A solution before a step that makes the pair equal is one after it, over suitable values of the
minted ids. -/
theorem Sol.forward (hS : Scoped S) (h : Sol ι S ρ) (hab : ρ a = ρ b) :
    ∃ vs : List Val, vs.length = m.minted.length ∧ Sol ι S' (extendBy S.size ρ vs) ∧
      (∀ p ∈ m.pairs, extendBy S.size ρ vs p.1 = extendBy S.size ρ vs p.2) ∧
      (vs.map weight).sum < weight (ρ a) := by
  have halt := ClassStore.lt_of_desc ha
  have hblt := ClassStore.lt_of_desc hb
  obtain ⟨vs, hlen, hvs, hholds, hw⟩ := hmeet.forward h.canonical (h.models ha)
    (hab ▸ h.models hb) (hS a _ ha) (hS b _ hb)
  refine ⟨vs, hlen, ?_, hholds.pairs, hw⟩
  have hold : ∀ {v}, v < S.size → extendBy S.size ρ vs v = ρ v := fun hv => extendBy_of_lt hv
  have hclass : ∀ {v}, S.Same v a ∨ S.Same v b → v < S.size ∧ ρ v = ρ a := by
    rintro v (hv | hv)
    · exact ⟨hv.symm.lt halt, h.same hv⟩
    · exact ⟨hv.symm.lt hblt, (h.same hv).trans hab.symm⟩
  have hsame : ∀ {v w}, S'.Same v w → extendBy S.size ρ vs v = extendBy S.size ρ vs w := by
    intro v w hvw
    rcases hmerge.same_iff.1 hvw with hs | ⟨hv, hw⟩
    · by_cases hv : v < S.size
      · rw [hold hv, hold (hs.lt hv), h.same hs]
      · have hw : ¬ w < S.size := fun hw => hv (hs.symm.lt hw)
        have : v = w := by
          rw [← S.root_of_le (not_lt.1 hv), ← S.root_of_le (not_lt.1 hw)]
          exact hs
        rw [this]
    · rw [hold (hclass hv).1, hold (hclass hw).1, (hclass hv).2, (hclass hw).2]
  refine ⟨fun v => ?_, hsame, fun {v d} hd => ?_, fun {v w d d'} hv hw hr hr' heq => ?_⟩
  · unfold extendBy
    split_ifs
    · exact h.canonical v
    · rcases hg : vs[v - S.size]? with _ | y
      · rw [List.getD_eq_getElem?_getD, hg]
        exact Val.canonical_of_not_row rfl
      · rw [List.getD_eq_getElem?_getD, hg]
        exact hvs y (List.mem_of_getElem? hg)
  · by_cases hv : v < S.size
    · rw [hold hv]
      by_cases hc : S.Same v a ∨ S.Same v b
      · cases (hmerge.desc_merged hv hc).symm.trans hd
        rw [(hclass hc).2]
        exact hholds.keep
      · have hc' := not_or.1 hc
        rw [hmerge.desc_of_ne hv hc'.1 hc'.2] at hd
        exact (h.models hd).congr fun c hc => (hold (hS v d hd c hc)).symm
    · obtain ⟨i, rfl⟩ := Nat.exists_eq_add_of_le (not_lt.1 hv)
      exact hholds.minted i d ((hmerge.desc_new i).symm.trans hd)
  · -- a rigid class comes from a rigid class of the same value
    obtain ⟨u, _, hu, hru, hsu⟩ := rigid_of_after hmerge ha hb hmeet hv hr
    obtain ⟨u', _, hu', hru', hsu'⟩ := rigid_of_after hmerge ha hb hmeet hw hr'
    have heu : ρ u = ρ u' := by
      rw [← hold (ClassStore.lt_of_desc hu), ← hold (ClassStore.lt_of_desc hu'), ← hsame hsu,
        ← hsame hsu', heq]
    have hs := h.apart hu hu' hru hru' heu
    exact hsu.trans ((hmerge.same_mono hs).trans hsu'.symm)

/-- A closed tail stays closed. -/
theorem isClosed_of_merge (hv : isClosed S v = true) : isClosed S' v = true := by
  have hd : S.desc v = some (.struct .emptyRecord) := beq_iff_eq.1 hv
  have hlt := ClassStore.lt_of_desc hd
  have hkeep : S.Same v a ∨ S.Same v b → m.keep = .struct .emptyRecord := by
    rintro (hs | hs)
    · cases (hs.desc_eq.symm.trans hd).symm.trans ha
      cases hmeet with
      | flat hf =>
        cases hf
        rfl
      | join h _ _ => cases h
      | _ => rfl
    · cases (hs.desc_eq.symm.trans hd).symm.trans hb
      cases hmeet with
      | flat hf =>
        cases hf
        rfl
      | join _ h _ => cases h
      | _ => rfl
  by_cases hc : S.Same v a ∨ S.Same v b
  · rw [isClosed, hmerge.desc_merged hlt hc, hkeep hc]
    rfl
  · have hc' := not_or.1 hc
    rw [isClosed, hmerge.desc_of_ne hlt hc'.1 hc'.2]
    exact hv

/-- What a step leaves behind has no open record without fields. -/
theorem tailsOk_of_merge (h : TailsOk S) : TailsOk S' := by
  have hmono : ∀ {d : Content}, TailOk S d → TailOk S' d := by
    intro d hd
    cases d with
    | struct f =>
      cases f with
      | record fields ext => exact fun he => isClosed_of_merge hmerge ha hb hmeet (hd he)
      | _ => trivial
    | _ => trivial
  have hta := h a ca ha
  have htb := h b cb hb
  have hnew : TailOk S m.keep ∧ ∀ d ∈ m.minted, TailOk S d := by
    cases hmeet with
    | bindLeft => exact ⟨htb, by simp⟩
    | bindRight => exact ⟨hta, by simp⟩
    | pinLeft _ => exact ⟨htb, by simp⟩
    | pinRight _ => exact ⟨hta, by simp⟩
    | @join ca cb keep _ _ hj =>
      refine ⟨?_, by simp⟩
      have hns := joinContent_isStructure hj
      cases keep with
      | struct f => cases hns
      | _ => trivial
    | flat hf =>
      cases hf with
      | @record fs₁ ext₁ fs₂ ext₂ _ _ =>
        have hrec : ∀ {fs : SortedMap Symbol VarId} {v : VarId}, fs.isEmpty = false →
            TailOk S (.struct (.record fs v)) := fun he he' => by simp [he] at he'
        have hins : ∀ {v : VarId}, (Row.only fs₂ fs₁).isEmpty = false →
            TailOk S (.struct (.record (fs₁.insertAll (Row.only fs₂ fs₁)) v)) := by
          intro v he he'
          rw [(isEmpty_insertAll.1 he').2] at he
          cases he
        rcases e₁ : (Row.only fs₁ fs₂).isEmpty with _ | _ <;>
          rcases e₂ : (Row.only fs₂ fs₁).isEmpty with _ | _ <;>
          simp only [rowsMeet, e₁, e₂, List.mem_cons, forall_eq_or_imp, List.not_mem_nil,
            false_imp_iff, implies_true, and_true]
        · exact ⟨hins e₂, trivial, hrec e₂, hrec e₁⟩
        · rw [insertAll_of_isEmpty e₂]
          exact ⟨hta, hrec e₁⟩
        · exact ⟨hins e₂, hrec e₂⟩
        · exact hta
      | _ => exact ⟨trivial, by simp⟩
  intro v d hd
  have hv := ClassStore.lt_of_desc hd
  by_cases hold : v < S.size
  · rw [hmerge.desc_old hold] at hd
    split_ifs at hd
    · cases hd
      exact hmono hnew.1
    · exact hmono (h v d hd)
  · obtain ⟨i, rfl⟩ := Nat.exists_eq_add_of_le (not_lt.1 hold)
    rw [hmerge.desc_new] at hd
    exact hmono (hnew.2 d (List.mem_of_getElem? hd))

end Step

/-- A solution of the final store of a run is one of every store before, and makes the pending pairs
equal. -/
theorem Solves.backward {P : Store → VarId → VarId → Prop} {F : Store} {stack : Pending}
    (h : Solves ι P S stack F) (ht : TailsOk S) (hsol : Sol ι F ρ) :
    Sol ι S ρ ∧ ∀ p ∈ stack, ρ p.1 = ρ p.2 := by
  induction h with
  | done => exact ⟨hsol, by simp⟩
  | same hsame _ ih =>
    obtain ⟨hS, hp⟩ := ih ht hsol
    exact ⟨hS, by simpa using ⟨hS.same hsame, fun x y hxy => hp (x, y) hxy⟩⟩
  | @met S S' F a b ca cb m stack _ _ ha hb hm _ _ hmerge _ ih =>
    have hmeet := meet_inv hm
    obtain ⟨hS', hp⟩ := ih (tailsOk_of_merge hmerge ha hb hmeet ht) hsol
    obtain ⟨hS, hab⟩ := hS'.backward hmerge ha hb hmeet (ht a ca ha) (ht b cb hb)
      fun p hp' => hp p (by simp [hp'])
    refine ⟨hS, fun p hp' => ?_⟩
    rcases List.mem_cons.1 hp' with rfl | hp'
    · exact hab
    · exact hp p (by simp [hp'])

end Basic

end IpeLang.Types
