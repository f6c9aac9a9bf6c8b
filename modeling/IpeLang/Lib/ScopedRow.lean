import Mathlib.Tactic
import Mathlib.Data.List.Sort
import IpeLang.Lib.SortedMap

/-!
# Rows with scoped labels

A row is a list of labelled values in which a label may be repeated, the earlier value hiding the
later one. The order of different labels does not matter, so a row is kept sorted by its labels,
the values of one label in their order.

* `Row.extend fs r`: the row `r` under the fields of the map `fs`;
* `Row.ext_valuesAt`: a row is determined by the values at each label;
* `Row.extend_eq_extend`: two extended rows are the same when they agree at the labels that both
  maps bind and each row takes the fields that only the other map has over a common rest.
-/

namespace IpeLang.Lib

variable {K V W : Type} [LinearOrder K]

namespace Row

/-- The entries are in the order of their labels. -/
def keyLe (p q : K × V) : Prop := p.1 ≤ q.1

instance : DecidableRel (keyLe (K := K) (V := V)) := fun p q => inferInstanceAs (Decidable (p.1 ≤ q.1))

instance : Std.Total (keyLe (K := K) (V := V)) := ⟨fun p q => le_total p.1 q.1⟩

instance : IsTrans (K × V) keyLe := ⟨fun _ _ _ => le_trans⟩

/-- A list of entries that is sorted by labels. -/
abbrev Sorted (r : List (K × V)) : Prop := r.Pairwise keyLe

/-- The row `r` under the fields of the map `fs`. -/
def extend (fs : SortedMap K V) (r : List (K × V)) : List (K × V) :=
  fs.entries.foldr (List.orderedInsert keyLe) r

/-- The values at the label `k`, the one in scope first. -/
def valuesAt (k : K) (r : List (K × V)) : List V := (r.filter fun p => p.1 = k).map Prod.snd

variable {k k' : K} {x : V} {r s : List (K × V)} {fs fs₁ fs₂ : SortedMap K V}

@[simp] theorem valuesAt_nil (k : K) : valuesAt k ([] : List (K × V)) = [] := rfl

theorem valuesAt_cons (k k' : K) (x : V) (r : List (K × V)) :
    valuesAt k ((k', x) :: r) = if k' = k then x :: valuesAt k r else valuesAt k r := by
  unfold valuesAt
  by_cases hk : k' = k <;> simp [hk]

theorem valuesAt_orderedInsert (k k' : K) (x : V) (r : List (K × V)) :
    valuesAt k (r.orderedInsert keyLe (k', x)) =
      if k' = k then x :: valuesAt k r else valuesAt k r := by
  induction r with
  | nil => exact valuesAt_cons k k' x []
  | cons p r ih =>
    obtain ⟨k₀, y⟩ := p
    rw [List.orderedInsert_cons]
    by_cases hle : keyLe (k', x) (k₀, y)
    · rw [if_pos hle, valuesAt_cons]
    · rw [if_neg hle, valuesAt_cons, ih, valuesAt_cons]
      have hlt : k₀ < k' := not_le.1 hle
      by_cases hk : k' = k
      · have : ¬ k₀ = k := fun h => hlt.ne (h.trans hk.symm)
        simp [hk, this]
      · simp [hk]

theorem valuesAt_extend (k : K) (fs : SortedMap K V) (r : List (K × V)) :
    valuesAt k (extend fs r) = (fs.get? k).toList ++ valuesAt k r := by
  obtain ⟨l, hl⟩ := fs
  unfold extend SortedMap.get?
  dsimp only
  induction l with
  | nil => rfl
  | cons p l ih =>
    obtain ⟨k', x⟩ := p
    obtain ⟨hp, hl'⟩ := List.pairwise_cons.1 hl
    rw [List.foldr_cons, valuesAt_orderedInsert, ih hl', SortedMap.lookup_cons_ite]
    by_cases hk : k' = k
    · subst hk
      simp [SortedMap.lookup_eq_none hp]
    · simp [hk, Ne.symm hk]

theorem sorted_extend (hr : Sorted r) (fs : SortedMap K V) : Sorted (extend fs r) := by
  unfold extend
  induction fs.entries with
  | nil => exact hr
  | cons p l ih => exact ih.orderedInsert p _

theorem extend_perm (fs : SortedMap K V) (r : List (K × V)) :
    (extend fs r).Perm (fs.entries ++ r) := by
  unfold extend
  induction fs.entries with
  | nil => exact .refl _
  | cons p l ih => exact (List.perm_orderedInsert keyLe p _).trans (ih.cons p)

theorem valuesAt_eq_nil_of_lt (h : ∀ p ∈ r, k < p.1) : valuesAt k r = [] := by
  unfold valuesAt
  rw [List.map_eq_nil_iff, List.filter_eq_nil_iff]
  intro p hp
  simpa using (h p hp).ne'

/-- A row is determined by the values at each label. -/
theorem ext_valuesAt (hr : Sorted r) (hs : Sorted s) (h : ∀ k, valuesAt k r = valuesAt k s) :
    r = s := by
  induction r generalizing s with
  | nil =>
    cases s with
    | nil => rfl
    | cons p s =>
      have := h p.1
      rw [valuesAt_cons, if_pos rfl] at this
      cases this
  | cons p r ih =>
    obtain ⟨k, x⟩ := p
    cases s with
    | nil =>
      have := h k
      rw [valuesAt_cons, if_pos rfl] at this
      cases this
    | cons q s =>
      obtain ⟨k', y⟩ := q
      obtain ⟨hp, hr'⟩ := List.pairwise_cons.1 hr
      obtain ⟨hq, hs'⟩ := List.pairwise_cons.1 hs
      -- a smaller first label would have no value on the other side
      have hne : ∀ {k₁ k₂ : K} {a b : V} {u v : List (K × V)}, (∀ c ∈ v, keyLe (k₂, b) c) →
          valuesAt k₁ ((k₁, a) :: u) = valuesAt k₁ ((k₂, b) :: v) → ¬ k₁ < k₂ := by
        intro k₁ k₂ a b u v hv heq hlt
        rw [valuesAt_eq_nil_of_lt (r := (k₂, b) :: v), valuesAt_cons, if_pos rfl] at heq
        · cases heq
        · intro c hc
          rcases List.mem_cons.1 hc with rfl | hc
          · exact hlt
          · exact hlt.trans_le (hv c hc)
      obtain rfl : k = k' :=
        le_antisymm (not_lt.1 (hne hp (h k').symm)) (not_lt.1 (hne hq (h k)))
      have hk := h k
      rw [valuesAt_cons, valuesAt_cons, if_pos rfl, if_pos rfl] at hk
      obtain ⟨rfl, -⟩ := List.cons.inj hk
      congr 1
      refine ih hr' hs' fun j => ?_
      have hj := h j
      rw [valuesAt_cons, valuesAt_cons] at hj
      split_ifs at hj
      · exact (List.cons.inj hj).2
      · exact hj

/-! ### Taking fields away -/

/-- The row without the values in scope at the labels of `fs`. -/
def without (fs : SortedMap K V) (r : List (K × V)) : List (K × V) :=
  fs.entries.foldr (fun p r => r.eraseP fun q => q.1 = p.1) r

theorem valuesAt_eraseP (k k' : K) (r : List (K × V)) :
    valuesAt k (r.eraseP fun q => q.1 = k') =
      if k = k' then (valuesAt k r).tail else valuesAt k r := by
  induction r with
  | nil => simp
  | cons p r ih =>
    obtain ⟨k₀, y⟩ := p
    by_cases hk₀ : k₀ = k'
    · rw [List.eraseP_cons_of_pos (by simpa using hk₀), valuesAt_cons]
      by_cases hk : k = k'
      · simp [hk, hk₀]
      · have : ¬ k₀ = k := fun h => hk (h.symm.trans hk₀)
        simp [hk, this]
    · rw [List.eraseP_cons_of_neg (by simpa using hk₀), valuesAt_cons, ih, valuesAt_cons]
      by_cases hk : k = k'
      · have : ¬ k₀ = k := fun h => hk₀ (h.trans hk)
        simp [this]
      · simp [hk]

theorem valuesAt_without (k : K) (fs : SortedMap K V) (r : List (K × V)) :
    valuesAt k (without fs r) =
      if fs.contains k then (valuesAt k r).tail else valuesAt k r := by
  obtain ⟨l, hl⟩ := fs
  unfold without SortedMap.contains SortedMap.get?
  dsimp only
  induction l with
  | nil => rfl
  | cons p l ih =>
    obtain ⟨k', x⟩ := p
    obtain ⟨hp, hl'⟩ := List.pairwise_cons.1 hl
    rw [List.foldr_cons, valuesAt_eraseP, ih hl', SortedMap.lookup_cons_ite]
    by_cases hk : k = k'
    · subst hk
      simp [SortedMap.lookup_eq_none hp]
    · rw [if_neg hk, if_neg hk]

theorem sorted_without (hr : Sorted r) (fs : SortedMap K V) : Sorted (without fs r) := by
  unfold without
  induction fs.entries with
  | nil => exact hr
  | cons p l ih => exact ih.sublist List.eraseP_sublist

/-- The fields of `fs₁` that `fs₂` lacks. -/
abbrev only (fs₁ fs₂ : SortedMap K V) : SortedMap K V := fs₁.filterKeys fun k => !fs₂.contains k

/-- Two extended rows agree when the maps agree where they overlap and the rows have a common
rest. -/
theorem extend_eq_extend (hr : Sorted r) (hs : Sorted s) :
    extend fs₁ r = extend fs₂ s ↔
      (∀ k x y, fs₁.get? k = some x → fs₂.get? k = some y → x = y) ∧
        ∃ n, Sorted n ∧ r = extend (only fs₂ fs₁) n ∧ s = extend (only fs₁ fs₂) n := by
  constructor
  · intro h
    have hat : ∀ k, (fs₁.get? k).toList ++ valuesAt k r = (fs₂.get? k).toList ++ valuesAt k s := by
      intro k
      rw [← valuesAt_extend, ← valuesAt_extend, h]
    refine ⟨fun k x y hx hy => ?_, without (only fs₂ fs₁) r, sorted_without hr _, ?_, ?_⟩
    · have := hat k
      simp only [hx, hy, Option.toList_some, List.singleton_append] at this
      exact (List.cons.inj this).1
    all_goals
      refine ext_valuesAt ‹_› (sorted_extend (sorted_without hr _) _) fun k => ?_
      have hk := hat k
      rw [valuesAt_extend, valuesAt_without]
      rcases h₁ : fs₁.get? k with _ | x <;> rcases h₂ : fs₂.get? k with _ | y <;>
        simp [SortedMap.contains, h₁, h₂] at hk ⊢
    all_goals simp [hk]
  · rintro ⟨hxy, n, hn, rfl, rfl⟩
    refine ext_valuesAt (sorted_extend hr _) (sorted_extend hs _) fun k => ?_
    simp only [valuesAt_extend, only, SortedMap.get?_filterKeys, SortedMap.contains]
    rcases h₁ : fs₁.get? k with _ | x <;> rcases h₂ : fs₂.get? k with _ | y <;> simp
    exact hxy k x y h₁ h₂

end Row

end IpeLang.Lib
