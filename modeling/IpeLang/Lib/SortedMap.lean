import Mathlib.Tactic
import Mathlib.Data.List.Pairwise
import Mathlib.Order.Basic
import Mathlib.Data.Finset.Dedup

/-!
# Ordered maps

A map that iterates in key order, kept as its list of entries with strictly increasing keys. The
order of the entries is a field, so a map with a repeated key cannot be built, and two maps with
the same bindings are equal (`SortedMap.ext_get`).
-/

namespace IpeLang.Lib

variable {K V W : Type} [LinearOrder K]

/-- A finite map whose entries are listed in increasing order of their keys. -/
structure SortedMap (K V : Type) [LinearOrder K] where
  entries : List (K × V)
  sorted : entries.Pairwise fun p q => p.1 < q.1

namespace SortedMap

instance [DecidableEq V] : DecidableEq (SortedMap K V) := fun a b =>
  decidable_of_iff (a.entries = b.entries)
    ⟨fun h => by cases a; cases b; cases h; rfl, fun h => h ▸ rfl⟩

/-- The map without entries. -/
def empty : SortedMap K V := ⟨[], List.Pairwise.nil⟩

/-- The value bound to `k`. -/
def get? (m : SortedMap K V) (k : K) : Option V := m.entries.lookup k

/-- Whether `k` is bound. -/
def contains (m : SortedMap K V) (k : K) : Bool := (m.get? k).isSome

/-- The keys, in increasing order. -/
def keys (m : SortedMap K V) : List K := m.entries.map Prod.fst

/-- The values, in the order of their keys. -/
def values (m : SortedMap K V) : List V := m.entries.map Prod.snd

/-- Whether the map has no entry. -/
def isEmpty (m : SortedMap K V) : Bool := m.entries.isEmpty

theorem lookup_cons_ite (k k' : K) (v : V) (l : List (K × V)) :
    ((k', v) :: l).lookup k = if k = k' then some v else l.lookup k := by
  rw [List.lookup_cons]
  by_cases hk : k = k'
  · simp [hk]
  · have : (k == k') = false := by simpa using hk
    simp [this, hk]

theorem lookup_eq_some {l : List (K × V)} (h : l.Pairwise fun p q => p.1 < q.1) {k : K} {v : V} :
    l.lookup k = some v ↔ (k, v) ∈ l := by
  induction l with
  | nil => simp
  | cons p l ih =>
    obtain ⟨k', v'⟩ := p
    obtain ⟨hp, hl⟩ := List.pairwise_cons.1 h
    rw [lookup_cons_ite]
    by_cases hk : k = k'
    · subst hk
      have hnot : (k, v) ∉ l := fun hm => lt_irrefl k (hp (k, v) hm)
      simp [hnot, eq_comm]
    · simp [ih hl, hk]

/-- A key that is smaller than all others is bound once. -/
theorem lookup_eq_none {l : List (K × V)} {k : K} (h : ∀ p ∈ l, k < p.1) : l.lookup k = none := by
  rw [List.lookup_eq_none_iff]
  intro p hp
  simpa using (h p hp).ne

theorem get?_eq_some {m : SortedMap K V} {k : K} {v : V} :
    m.get? k = some v ↔ (k, v) ∈ m.entries := lookup_eq_some m.sorted

theorem mem_values {m : SortedMap K V} {v : V} : v ∈ m.values ↔ ∃ k, m.get? k = some v := by
  simp [values, get?_eq_some]

theorem contains_iff {m : SortedMap K V} {k : K} :
    m.contains k = true ↔ ∃ v, m.get? k = some v := by
  simp [contains, Option.isSome_iff_exists]

theorem isEmpty_iff {m : SortedMap K V} : m.isEmpty = true ↔ ∀ k, m.get? k = none := by
  constructor
  · intro h k
    have : m.entries = [] := by simpa [isEmpty] using h
    simp [get?, this]
  · intro h
    have : m.entries = [] := by
      rcases he : m.entries with _ | ⟨⟨k, v⟩, l⟩
      · rfl
      · have hk := get?_eq_some.2 (show (k, v) ∈ m.entries by rw [he]; simp)
        rw [h k] at hk
        cases hk
    simp [isEmpty, this]

@[simp] theorem get?_empty (k : K) : (empty : SortedMap K V).get? k = none := rfl

/-- Maps with the same bindings are equal. -/
theorem ext_get {a b : SortedMap K V} (h : ∀ k, a.get? k = b.get? k) : a = b := by
  have hmem : ∀ p, p ∈ a.entries ↔ p ∈ b.entries := by
    rintro ⟨k, v⟩
    rw [← get?_eq_some, ← get?_eq_some, h]
  have hperm : a.entries.Perm b.entries := by
    rw [List.perm_ext_iff_of_nodup]
    · exact hmem
    · exact a.sorted.imp fun {p q} hpq (heq : p = q) => lt_irrefl q.1 (heq ▸ hpq)
    · exact b.sorted.imp fun {p q} hpq (heq : p = q) => lt_irrefl q.1 (heq ▸ hpq)
  have := hperm.eq_of_pairwise (fun p q _ _ h₁ h₂ => absurd h₁ (lt_asymm h₂)) a.sorted b.sorted
  cases a; cases b; cases this; rfl

/-! ### Insertion -/

/-- Insert an entry at its place, replacing an entry with the same key. -/
def insertEntry (k : K) (v : V) : List (K × V) → List (K × V)
  | [] => [(k, v)]
  | (k', v') :: l =>
    if k < k' then (k, v) :: (k', v') :: l
    else if k = k' then (k, v) :: l
    else (k', v') :: insertEntry k v l

theorem mem_insertEntry_fst {k : K} {v : V} {l : List (K × V)} {p : K × V}
    (h : p ∈ insertEntry k v l) : p.1 = k ∨ p ∈ l := by
  induction l with
  | nil => simp [insertEntry] at h; simp [h]
  | cons q l ih =>
    obtain ⟨k', v'⟩ := q
    simp only [insertEntry] at h
    split_ifs at h with h₁ h₂
    · rcases List.mem_cons.1 h with rfl | h
      · exact Or.inl rfl
      · exact Or.inr h
    · rcases List.mem_cons.1 h with rfl | h
      · exact Or.inl rfl
      · exact Or.inr (List.mem_cons_of_mem _ h)
    · rcases List.mem_cons.1 h with rfl | h
      · exact Or.inr List.mem_cons_self
      · exact (ih h).imp_right (List.mem_cons_of_mem _)

theorem insertEntry_sorted {k : K} {v : V} {l : List (K × V)}
    (h : l.Pairwise fun p q => p.1 < q.1) :
    (insertEntry k v l).Pairwise fun p q => p.1 < q.1 := by
  induction l with
  | nil => simp [insertEntry]
  | cons q l ih =>
    obtain ⟨k', v'⟩ := q
    obtain ⟨hq, hl⟩ := List.pairwise_cons.1 h
    simp only [insertEntry]
    split_ifs with h₁ h₂
    · refine List.pairwise_cons.2 ⟨fun p hp => ?_, h⟩
      rcases List.mem_cons.1 hp with rfl | hp
      · exact h₁
      · exact h₁.trans (hq p hp)
    · exact List.pairwise_cons.2 ⟨fun p hp => h₂ ▸ hq p hp, hl⟩
    · refine List.pairwise_cons.2 ⟨fun p hp => ?_, ih hl⟩
      rcases mem_insertEntry_fst hp with hk | hp
      · exact hk ▸ lt_of_le_of_ne (not_lt.1 h₁) (Ne.symm h₂)
      · exact hq p hp

/-- Bind `k` to `v`, replacing an earlier binding. -/
def insert (m : SortedMap K V) (k : K) (v : V) : SortedMap K V :=
  ⟨insertEntry k v m.entries, insertEntry_sorted m.sorted⟩

theorem lookup_insertEntry (k k' : K) (v : V) (l : List (K × V))
    (h : l.Pairwise fun p q => p.1 < q.1) :
    (insertEntry k v l).lookup k' = if k' = k then some v else l.lookup k' := by
  induction l with
  | nil => exact lookup_cons_ite k' k v []
  | cons q l ih =>
    obtain ⟨k₀, v₀⟩ := q
    obtain ⟨hq, hl⟩ := List.pairwise_cons.1 h
    by_cases h₁ : k < k₀
    · rw [insertEntry, if_pos h₁, lookup_cons_ite]
    by_cases h₂ : k = k₀
    · subst h₂
      rw [insertEntry, if_neg h₁, if_pos rfl, lookup_cons_ite, lookup_cons_ite]
      split_ifs <;> rfl
    · rw [insertEntry, if_neg h₁, if_neg h₂, lookup_cons_ite, lookup_cons_ite, ih hl]
      by_cases h₃ : k' = k
      · simp [h₃, h₂]
      · simp [h₃]

@[simp] theorem get?_insert (m : SortedMap K V) (k k' : K) (v : V) :
    (m.insert k v).get? k' = if k' = k then some v else m.get? k' :=
  lookup_insertEntry k k' v m.entries m.sorted

/-- The keys as a set. -/
def keySet (m : SortedMap K V) : Finset K := m.keys.toFinset

theorem get?_insert_self (m : SortedMap K V) (k : K) (v : V) : (m.insert k v).get? k = some v := by
  rw [get?_insert, if_pos rfl]

theorem get?_insert_of_ne (m : SortedMap K V) {k k' : K} (h : k' ≠ k) (v : V) :
    (m.insert k v).get? k' = m.get? k' := by
  rw [get?_insert, if_neg h]

theorem mem_keySet {m : SortedMap K V} {k : K} : k ∈ m.keySet ↔ ∃ v, m.get? k = some v := by
  simp [keySet, keys, get?_eq_some]

theorem mem_keys {m : SortedMap K V} {k : K} : k ∈ m.keys ↔ ∃ v, m.get? k = some v := by
  rw [← mem_keySet, keySet, List.mem_toFinset]

theorem keys_sorted (m : SortedMap K V) : m.keys.Pairwise (· < ·) := List.pairwise_map.2 m.sorted

@[simp] theorem keySet_empty : (empty : SortedMap K V).keySet = ∅ := rfl

theorem keySet_insert (m : SortedMap K V) (k : K) (v : V) :
    (m.insert k v).keySet = Insert.insert k m.keySet := by
  ext k'
  rw [mem_keySet, Finset.mem_insert, mem_keySet]
  by_cases hk : k' = k <;> simp [hk]

/-- Insert every entry of `n`. -/
def insertAll (m n : SortedMap K V) : SortedMap K V :=
  n.entries.foldl (fun m p => m.insert p.1 p.2) m

theorem get?_foldl_insert (l : List (K × V)) (h : l.Pairwise fun p q => p.1 < q.1)
    (m : SortedMap K V) (k : K) :
    (l.foldl (fun m p => m.insert p.1 p.2) m).get? k = (l.lookup k).or (m.get? k) := by
  induction l generalizing m with
  | nil => simp
  | cons p l ih =>
    obtain ⟨k', v'⟩ := p
    obtain ⟨hp, hl⟩ := List.pairwise_cons.1 h
    rw [List.foldl_cons, ih hl, get?_insert, lookup_cons_ite]
    by_cases hk : k = k'
    · subst hk
      simp [lookup_eq_none hp]
    · simp [hk]

@[simp] theorem get?_insertAll (m n : SortedMap K V) (k : K) :
    (m.insertAll n).get? k = (n.get? k).or (m.get? k) :=
  get?_foldl_insert n.entries n.sorted m k

/-! ### Mapping the values -/

/-- Apply a function to every value. -/
def mapValues (m : SortedMap K V) (f : V → W) : SortedMap K W :=
  ⟨m.entries.map fun p => (p.1, f p.2), List.pairwise_map.2 m.sorted⟩

@[simp] theorem get?_mapValues (m : SortedMap K V) (f : V → W) (k : K) :
    (m.mapValues f).get? k = (m.get? k).map f := by
  simp only [get?, mapValues]
  induction m.entries with
  | nil => rfl
  | cons p l ih =>
    obtain ⟨k', v⟩ := p
    rw [List.map_cons, lookup_cons_ite, lookup_cons_ite, ih]
    split_ifs <;> rfl

@[simp] theorem values_mapValues (m : SortedMap K V) (f : V → W) :
    (m.mapValues f).values = m.values.map f := by simp [values, mapValues]

@[simp] theorem isEmpty_mapValues (m : SortedMap K V) (f : V → W) :
    (m.mapValues f).isEmpty = m.isEmpty := by simp [isEmpty, mapValues]

/-! ### Restriction to some keys -/

/-- Keep the entries whose key satisfies `p`. -/
def filterKeys (m : SortedMap K V) (p : K → Bool) : SortedMap K V :=
  ⟨m.entries.filter fun q => p q.1, m.sorted.sublist List.filter_sublist⟩

@[simp] theorem get?_filterKeys (m : SortedMap K V) (p : K → Bool) (k : K) :
    (m.filterKeys p).get? k = if p k then m.get? k else none := by
  apply Option.ext
  intro v
  by_cases hp : p k <;> simp [get?_eq_some, filterKeys, hp]

theorem filterKeys_mapValues (m : SortedMap K V) (f : V → W) (p : K → Bool) :
    (m.mapValues f).filterKeys p = (m.filterKeys p).mapValues f := by
  apply ext_get
  intro k
  simp only [get?_filterKeys, get?_mapValues]
  split_ifs <;> rfl

@[simp] theorem contains_mapValues (m : SortedMap K V) (f : V → W) (k : K) :
    (m.mapValues f).contains k = m.contains k := by simp [contains]

/-! ### Removal -/

/-- The number of entries. -/
def size (m : SortedMap K V) : ℕ := m.entries.length

/-- Remove the entry of `k`. -/
def erase (m : SortedMap K V) (k : K) : SortedMap K V := m.filterKeys (· ≠ k)

@[simp] theorem get?_erase (m : SortedMap K V) (k k' : K) :
    (m.erase k).get? k' = if k' = k then none else m.get? k' := by
  by_cases h : k' = k <;> simp [erase, h]

/-- Keep the entries that satisfy `p`. -/
def retain (m : SortedMap K V) (p : K → V → Bool) : SortedMap K V :=
  ⟨m.entries.filter fun q => p q.1 q.2, m.sorted.sublist List.filter_sublist⟩

theorem get?_erase_self (m : SortedMap K V) (k : K) : (m.erase k).get? k = none := by
  rw [get?_erase, if_pos rfl]

theorem get?_erase_of_ne (m : SortedMap K V) {k k' : K} (h : k' ≠ k) :
    (m.erase k).get? k' = m.get? k' := by
  rw [get?_erase, if_neg h]

theorem get?_retain_eq_some {m : SortedMap K V} {p : K → V → Bool} {k : K} {v : V} :
    (m.retain p).get? k = some v ↔ m.get? k = some v ∧ p k v = true := by
  simp [get?_eq_some, retain]

@[simp] theorem size_empty : (empty : SortedMap K V).size = 0 := rfl

theorem card_keySet (m : SortedMap K V) : m.keySet.card = m.size := by
  have hnodup : m.keys.Nodup := m.keys_sorted.imp fun h => ne_of_lt h
  rw [keySet, List.toFinset_card_of_nodup hnodup, keys, List.length_map, size]

theorem size_filterKeys_le (m : SortedMap K V) (p : K → Bool) : (m.filterKeys p).size ≤ m.size :=
  List.length_filter_le ..

theorem size_erase_le (m : SortedMap K V) (k : K) : (m.erase k).size ≤ m.size :=
  size_filterKeys_le ..

theorem size_retain_le (m : SortedMap K V) (p : K → V → Bool) : (m.retain p).size ≤ m.size :=
  List.length_filter_le ..

theorem length_insertEntry (k : K) (v : V) (l : List (K × V)) :
    (insertEntry k v l).length ≤ l.length + 1 := by
  induction l with
  | nil => simp [insertEntry]
  | cons q l ih =>
    unfold insertEntry
    split_ifs
    · simp
    · simp
    · simp only [List.length_cons]
      omega

theorem length_insertEntry_of_lookup {k : K} {v v' : V} {l : List (K × V)}
    (hl : l.Pairwise fun p q => p.1 < q.1) (h : l.lookup k = some v') :
    (insertEntry k v l).length = l.length := by
  induction l with
  | nil => cases h
  | cons q l ih =>
    obtain ⟨k₀, v₀⟩ := q
    obtain ⟨hq, hl⟩ := List.pairwise_cons.1 hl
    rw [lookup_cons_ite] at h
    by_cases h₁ : k = k₀
    · subst h₁
      simp [insertEntry]
    · rw [if_neg h₁] at h
      have hlt : ¬ k < k₀ := fun hlt => by
        rw [lookup_eq_none fun p hp => hlt.trans (hq p hp)] at h
        cases h
      rw [insertEntry, if_neg hlt, if_neg h₁, List.length_cons, ih hl h, List.length_cons]

theorem size_insert_le (m : SortedMap K V) (k : K) (v : V) : (m.insert k v).size ≤ m.size + 1 :=
  length_insertEntry ..

theorem size_insert_of_get? {m : SortedMap K V} {k : K} {v' : V} (h : m.get? k = some v') (v : V) :
    (m.insert k v).size = m.size :=
  length_insertEntry_of_lookup m.sorted h

/-- The pairs of values that two maps bind to the same key, in the order of the keys. -/
def shared (m : SortedMap K V) (n : SortedMap K W) : List (V × W) :=
  m.entries.filterMap fun p => (n.get? p.1).map fun w => (p.2, w)

theorem mem_shared {m : SortedMap K V} {n : SortedMap K W} {v : V} {w : W} :
    (v, w) ∈ m.shared n ↔ ∃ k, m.get? k = some v ∧ n.get? k = some w := by
  simp [shared, List.mem_filterMap, get?_eq_some]

end SortedMap

end IpeLang.Lib
