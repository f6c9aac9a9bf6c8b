import Mathlib.Tactic

/-!
# Lists in the order of use

A store that stamps its elements with the time of their last use, and keeps them in any order, stands
for the list of them from the one that was used longest ago to the one used last. Giving an element
a new stamp moves it to the end of that list, and the element with the least stamp is its head.

* `ByStamp`: the list that a store stands for;
* `ByStamp.filter`, `ByStamp.push`, `ByStamp.evict`: what a store does to it.
-/

namespace IpeLang.Lib

variable {α κ : Type}

/-! ### The first element that meets a condition -/

theorem append_of_findIdx? {p : α → Bool} {v : List α} {i : ℕ} (h : v.findIdx? p = some i) :
    ∃ a e b, v = a ++ e :: b ∧ a.length = i ∧ p e = true ∧ ∀ x ∈ a, p x = false := by
  induction v generalizing i with
  | nil => cases h
  | cons x v ih =>
    rw [List.findIdx?_cons] at h
    by_cases hx : p x = true
    · rw [if_pos hx] at h
      cases h
      exact ⟨[], x, v, rfl, rfl, hx, by simp⟩
    · rw [if_neg hx] at h
      obtain ⟨j, hj, rfl⟩ := Option.map_eq_some_iff.1 h
      obtain ⟨a, e, b, rfl, rfl, he, ha⟩ := ih hj
      exact ⟨x :: a, e, b, rfl, rfl, he, List.forall_mem_cons.2 ⟨Bool.eq_false_iff.2 hx, ha⟩⟩

theorem eraseIdx_length_append (a b : List α) (e : α) : (a ++ e :: b).eraseIdx a.length = a ++ b := by
  rw [List.eraseIdx_append_of_length_le le_rfl, Nat.sub_self, List.eraseIdx_cons_zero]

theorem modify_length_append (a b : List α) (e : α) (f : α → α) :
    (a ++ e :: b).modify a.length f = a ++ f e :: b := by
  induction a with
  | nil => rfl
  | cons x a ih => rw [List.cons_append, List.length_cons, List.modify_succ_cons, ih, List.cons_append]

section Keyed

variable [DecidableEq κ] (key : α → κ)

/-- The elements with another key than `k`. -/
def without (k : κ) (v : List α) : List α := v.filter fun e => decide (key e ≠ k)

variable {key}

theorem without_append_cons {a b : List α} {e : α} (h : ((a ++ e :: b).map key).Nodup) :
    without key (key e) (a ++ e :: b) = a ++ b := by
  rw [List.map_append, List.map_cons, List.nodup_middle, List.nodup_cons] at h
  have hne : ∀ x ∈ a ++ b, key x ≠ key e := by
    intro x hx heq
    rw [← List.map_append] at h
    exact h.1 (heq ▸ List.mem_map_of_mem hx)
  have hne := List.forall_mem_append.1 hne
  unfold without
  rw [List.filter_append, List.filter_cons_of_neg (by simp),
    List.filter_eq_self.2 fun x hx => decide_eq_true (hne.1 x hx),
    List.filter_eq_self.2 fun x hx => decide_eq_true (hne.2 x hx)]

theorem without_eq_self {k : κ} {v : List α} (h : ∀ e ∈ v, key e ≠ k) : without key k v = v :=
  List.filter_eq_self.2 fun e he => decide_eq_true (h e he)

theorem key_ne_of_mem_without {k : κ} {v : List α} {e : α} (h : e ∈ without key k v) : key e ≠ k :=
  of_decide_eq_true (List.mem_filter.1 h).2

theorem length_without_lt {v : List α} {e : α} (h : e ∈ v) :
    (without key (key e) v).length < v.length := by
  unfold without
  rw [List.length_filter_lt_length_iff_exists]
  exact ⟨e, h, by simp⟩

theorem map_without {β : Type} {f : α → β} (key' : β → κ) (hkey : ∀ a, key' (f a) = key a) (k : κ)
    (v : List α) : (without key k v).map f = without key' k (v.map f) := by
  unfold without
  rw [List.filter_map]
  simp only [Function.comp_def, hkey]

theorem find?_key {v : List α} {e : α} (h : (v.map key).Nodup) (he : e ∈ v) :
    v.find? (fun x => decide (key x = key e)) = some e := by
  induction v with
  | nil => cases he
  | cons x v ih =>
    rw [List.map_cons, List.nodup_cons] at h
    rcases List.mem_cons.1 he with rfl | he
    · rw [List.find?_cons_of_pos (by simp)]
    · have hne : key x ≠ key e := fun heq => h.1 (heq ▸ List.mem_map_of_mem he)
      rw [List.find?_cons_of_neg (by simpa using hne), ih h.2 he]

theorem nodup_without {k : κ} {v : List α} (h : (v.map key).Nodup) :
    ((without key k v).map key).Nodup := h.sublist (List.filter_sublist.map key)

theorem nodup_push {k : κ} {v : List α} {e : α} (h : (v.map key).Nodup) (he : key e = k) :
    ((without key k v ++ [e]).map key).Nodup := by
  rw [List.map_append, List.map_singleton, List.nodup_append_comm, List.singleton_append,
    List.nodup_cons]
  refine ⟨fun hmem => ?_, nodup_without h⟩
  obtain ⟨x, hx, hkey⟩ := List.mem_map.1 hmem
  exact key_ne_of_mem_without hx (hkey.trans he)

end Keyed

/-! ### Stamps -/

/-- `l` has the elements of the store in the order of their stamps, which differ and are not beyond
`top`. -/
structure ByStamp (stamp : α → ℕ) (top : ℕ) (store l : List α) : Prop where
  perm : l.Perm store
  sorted : l.Pairwise fun a b => stamp a < stamp b
  le : ∀ a ∈ l, stamp a ≤ top

/-- The position and the value of the first element with the least stamp. -/
def min_by_key (stamp : α → ℕ) : List α → Option (ℕ × α)
  | [] => none
  | a :: v =>
    match min_by_key stamp v with
    | none => some (0, a)
    | some (i, b) => if stamp a ≤ stamp b then some (0, a) else some (i + 1, b)

theorem min_by_key_spec {stamp : α → ℕ} {v : List α} {i : ℕ} {e : α}
    (h : min_by_key stamp v = some (i, e)) :
    (∀ x ∈ v, stamp e ≤ stamp x) ∧ ∃ a b, v = a ++ e :: b ∧ a.length = i := by
  induction v generalizing i e with
  | nil => cases h
  | cons x v ih =>
    unfold min_by_key at h
    split at h
    · rename_i hrest
      cases h
      cases v with
      | nil => exact ⟨by simp, [], [], rfl, rfl⟩
      | cons y v =>
        unfold min_by_key at hrest
        split at hrest
        · cases hrest
        · split_ifs at hrest
    · rename_i j y hrest
      obtain ⟨hmin, a, b, rfl, rfl⟩ := ih hrest
      split_ifs at h with hle
      · cases h
        exact ⟨List.forall_mem_cons.2 ⟨le_rfl, fun z hz => hle.trans (hmin z hz)⟩, [], _, rfl, rfl⟩
      · cases h
        exact ⟨List.forall_mem_cons.2 ⟨(not_le.1 hle).le, hmin⟩, x :: a, b, rfl, rfl⟩

theorem min_by_key_eq_none {stamp : α → ℕ} {v : List α} : min_by_key stamp v = none ↔ v = [] := by
  cases v with
  | nil => exact ⟨fun _ => rfl, fun _ => rfl⟩
  | cons x v =>
    refine ⟨fun h => ?_, fun h => by cases h⟩
    unfold min_by_key at h
    split at h
    · cases h
    · split_ifs at h

namespace ByStamp

variable {stamp : α → ℕ} {top top' : ℕ} {store store' l : List α}

theorem nil : ByStamp stamp top [] [] := ⟨.refl _, .nil, by simp⟩

theorem mono (h : ByStamp stamp top store l) (hle : top ≤ top') : ByStamp stamp top' store l :=
  ⟨h.perm, h.sorted, fun a ha => (h.le a ha).trans hle⟩

theorem of_perm (h : ByStamp stamp top store l) (hperm : store.Perm store') :
    ByStamp stamp top store' l := ⟨h.perm.trans hperm, h.sorted, h.le⟩

theorem filter (h : ByStamp stamp top store l) (p : α → Bool) :
    ByStamp stamp top (store.filter p) (l.filter p) :=
  ⟨h.perm.filter p, h.sorted.filter p, fun a ha => h.le a (List.mem_of_mem_filter ha)⟩

/-- An element with a new stamp is the last. -/
theorem push (h : ByStamp stamp top store l) {a : α} (ha : stamp a = top + 1) :
    ByStamp stamp (top + 1) (store ++ [a]) (l ++ [a]) := by
  refine ⟨h.perm.append_right [a], ?_, fun b hb => ?_⟩
  · rw [List.pairwise_append]
    refine ⟨h.sorted, List.pairwise_singleton _ _, fun b hb c hc => ?_⟩
    rw [List.mem_singleton.1 hc, ha]
    exact Nat.lt_succ_of_le (h.le b hb)
  · rcases List.mem_append.1 hb with hb | hb
    · exact (h.le b hb).trans (Nat.le_succ top)
    · rw [List.mem_singleton.1 hb, ha]

/-- The element with the least stamp is the first. -/
theorem evict (h : ByStamp stamp top store l) {i : ℕ} {e : α}
    (hmin : min_by_key stamp store = some (i, e)) :
    ByStamp stamp top (store.eraseIdx i) l.tail := by
  obtain ⟨hle, a, b, rfl, rfl⟩ := min_by_key_spec hmin
  rw [eraseIdx_length_append]
  cases l with
  | nil => exact absurd h.perm.symm.eq_nil (by simp)
  | cons x l =>
    obtain ⟨hx, hsorted⟩ := List.pairwise_cons.1 h.sorted
    have hxe : x = e := by
      have he : e ∈ x :: l := h.perm.symm.subset (by simp)
      rcases List.mem_cons.1 he with rfl | he
      · rfl
      · exact absurd (hle x (h.perm.subset List.mem_cons_self)) (not_le.2 (hx e he))
    subst hxe
    have hperm := h.perm.trans List.perm_middle
    exact ⟨(List.perm_cons x).1 hperm, hsorted, fun a ha => h.le a (List.mem_cons_of_mem x ha)⟩

end ByStamp

end IpeLang.Lib
