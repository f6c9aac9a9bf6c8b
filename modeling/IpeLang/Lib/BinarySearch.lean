import Mathlib.Tactic

/-!
# Binary search

A search by halving in a list whose elements compare as less, then equal, then greater.

* `binarySearchBy`: the place of an element that compares as equal, or the place where one belongs;
* `Graded`: the order that the search relies on;
* `found_spec`, `absent_spec`: how the outcome cuts the list.
-/

namespace IpeLang.Lib

variable {α : Type}

/-- What a search gives. -/
inductive Place
  | found (index : ℕ)
  | absent (index : ℕ)
  deriving DecidableEq, Repr

/-- Halve the `size` places from `base` on until one is left. -/
def narrow (xs : List α) (f : α → Ordering) (base size : ℕ) : ℕ :=
  if size ≤ 1 then base
  else
    let half := size / 2
    let mid := base + half
    narrow xs f (if xs[mid]?.map f = some .gt then base else mid) (size - half)
  termination_by size

/-- Search by a comparison of the elements with what is sought. -/
def binarySearchBy (xs : List α) (f : α → Ordering) : Place :=
  if xs.isEmpty then .absent 0
  else
    let base := narrow xs f 0 xs.length
    match xs[base]?.map f with
    | some .eq => .found base
    | some .lt => .absent (base + 1)
    | _ => .absent base

/-- What compares as less comes first, and what compares as greater comes last. -/
def Graded (f : α → Ordering) (xs : List α) : Prop :=
  xs.Pairwise fun a b => (f b = .lt → f a = .lt) ∧ (f a = .gt → f b = .gt)

section Search

variable {xs : List α} {f : α → Ordering} {base size i : ℕ}

theorem Graded.at (h : Graded f xs) {j : ℕ} {a b : α} (hij : i < j) (ha : xs[i]? = some a)
    (hb : xs[j]? = some b) : (f b = .lt → f a = .lt) ∧ (f a = .gt → f b = .gt) := by
  obtain ⟨hi, rfl⟩ := List.getElem?_eq_some_iff.1 ha
  obtain ⟨hj, rfl⟩ := List.getElem?_eq_some_iff.1 hb
  exact List.pairwise_iff_getElem.1 h i j hi hj hij

/-- What the places that are left say: everything after them is greater, and the first of them is
not, unless it is the first of all. -/
structure Narrowed (f : α → Ordering) (xs : List α) (base size : ℕ) : Prop where
  pos : 0 < size
  le : base + size ≤ xs.length
  after : ∀ j b, base + size ≤ j → xs[j]? = some b → f b = .gt
  first : base = 0 ∨ ∀ a, xs[base]? = some a → f a ≠ .gt

theorem Narrowed.half (h : Narrowed f xs base size) (hg : Graded f xs) (hs : 1 < size) :
    Narrowed f xs (if xs[base + size / 2]?.map f = some .gt then base else base + size / 2)
      (size - size / 2) := by
  have hle := h.le
  split_ifs with hmid
  · obtain ⟨a, ha, hgt⟩ := Option.map_eq_some_iff.1 hmid
    refine ⟨by omega, by omega, fun j b hj hb => ?_, h.first⟩
    rcases (show base + size / 2 ≤ j by omega).eq_or_lt with rfl | hlt
    · exact Option.some.inj (ha.symm.trans hb) ▸ hgt
    · exact (hg.at hlt ha hb).2 hgt
  · refine ⟨by omega, by omega, fun j b hj hb => h.after j b (by omega) hb, Or.inr fun a ha => ?_⟩
    intro hgt
    exact hmid (by rw [ha, Option.map_some, hgt])

/-- One place is left at the end. -/
theorem Narrowed.narrow (h : Narrowed f xs base size) (hg : Graded f xs) :
    Narrowed f xs (narrow xs f base size) 1 := by
  induction base, size using narrow.induct xs f with
  | case1 base size hs =>
    obtain rfl : size = 1 := by have := h.pos; omega
    rwa [Lib.narrow, if_pos le_rfl]
  | case2 base size hs half mid ih =>
    rw [Lib.narrow, if_neg hs]
    exact ih (h.half hg (by omega))

theorem found_spec (h : binarySearchBy xs f = .found i) :
    ∃ l x r, xs = l ++ x :: r ∧ l.length = i ∧ f x = .eq := by
  unfold binarySearchBy at h
  split_ifs at h
  dsimp only at h
  set base := Lib.narrow xs f 0 xs.length
  cases ho : xs[base]? with
  | none => simp [ho] at h
  | some x =>
    cases hf : f x <;> simp only [ho, hf, Option.map_some, reduceCtorEq, Place.found.injEq] at h
    obtain ⟨hlt, hx⟩ := List.getElem?_eq_some_iff.1 ho
    refine ⟨xs.take base, x, xs.drop (base + 1), ?_, ?_, hf⟩
    · rw [← hx, List.getElem_cons_drop, List.take_append_drop]
    · rw [List.length_take, h]
      omega

theorem absent_spec (h : binarySearchBy xs f = .absent i) (hg : Graded f xs) :
    ∃ l r, xs = l ++ r ∧ l.length = i ∧ (∀ a ∈ l, f a = .lt) ∧ ∀ b ∈ r, f b = .gt := by
  unfold binarySearchBy at h
  by_cases hnil : xs = []
  · subst hnil
    simp only [List.isEmpty_nil, if_true, Place.absent.injEq] at h
    exact ⟨[], [], rfl, h, by simp, by simp⟩
  · rw [if_neg (by simpa using hnil)] at h
    dsimp only at h
    have hstart : Narrowed f xs 0 xs.length := by
      refine ⟨List.length_pos_of_ne_nil hnil, by omega, fun j b hj hb => ?_, Or.inl rfl⟩
      rw [List.getElem?_eq_none (by omega)] at hb
      cases hb
    obtain ⟨-, hle, hafter, hfirst⟩ := hstart.narrow hg
    set base := Lib.narrow xs f 0 xs.length
    obtain ⟨x, hx⟩ : ∃ x, xs[base]? = some x := ⟨_, List.getElem?_eq_getElem (by omega)⟩
    have hdrop : ∀ k, base < k → ∀ b ∈ xs.drop k, f b = .gt := by
      intro k hk b hb
      obtain ⟨j, hj⟩ := List.mem_iff_getElem?.1 hb
      rw [List.getElem?_drop] at hj
      exact hafter (k + j) b (by omega) hj
    cases hf : f x with
    | eq => simp [hx, hf] at h
    | lt =>
      simp only [hx, hf, Option.map_some, Place.absent.injEq] at h
      subst h
      refine ⟨xs.take (base + 1), xs.drop (base + 1), (List.take_append_drop _ _).symm, ?_, ?_,
        hdrop _ (by omega)⟩
      · rw [List.length_take]
        omega
      · intro a ha
        obtain ⟨j, hj⟩ := List.mem_iff_getElem?.1 ha
        rw [List.getElem?_take] at hj
        split_ifs at hj with hjb
        rcases (show j ≤ base by omega).eq_or_lt with rfl | hlt
        · exact Option.some.inj (hx.symm.trans hj) ▸ hf
        · exact (hg.at hlt hj hx).1 hf
    | gt =>
      simp only [hx, hf, Option.map_some, Place.absent.injEq] at h
      have hzero : base = 0 := hfirst.resolve_right fun hne => hne x hx hf
      refine ⟨[], xs, rfl, by simp [← h, hzero], by simp, fun b hb => ?_⟩
      obtain ⟨j, hj⟩ := List.mem_iff_getElem?.1 hb
      rcases Nat.eq_zero_or_pos j with rfl | hpos
      · rw [← hzero, hx] at hj
        exact Option.some.inj hj ▸ hf
      · exact hafter j b (by omega) hj

end Search

end IpeLang.Lib
