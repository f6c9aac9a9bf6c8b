import Mathlib.Data.Rat.Floor

/-!
# Fair splits

An integer is split into parts that differ by at most one: all get the quotient, and the first ones a unit
of the remainder each, toward the sign of the integer.

* `truncate`: the integer part of a rational number, toward zero;
* `splitEvenly`: the split, with `sum_splitEvenly`, `splitEvenly_close` and `splitEvenly_sorted`.
-/

namespace IpeLang.Lib

/-! ### Integer parts -/

/-- The integer part, toward zero. -/
def truncate (q : ℚ) : ℤ := if 0 ≤ q then ⌊q⌋ else ⌈q⌉

theorem truncate_intCast (z : ℤ) : truncate z = z := by
  unfold truncate
  split
  · exact Int.floor_intCast z
  · exact Int.ceil_intCast z

theorem truncate_intCast_div (z : ℤ) (n : ℕ) : truncate ((z : ℚ) / n) = z.tdiv n := by
  unfold truncate
  rcases le_or_gt 0 z with hz | hz
  · have hq : (0 : ℚ) ≤ (z : ℚ) / n := div_nonneg (by exact_mod_cast hz) (Nat.cast_nonneg n)
    rw [if_pos hq, Rat.floor_intCast_div_natCast, Int.tdiv_eq_ediv_of_nonneg hz]
  · rcases Nat.eq_zero_or_pos n with rfl | hn
    · simp
    · have hq : ¬ (0 : ℚ) ≤ (z : ℚ) / n := not_le.2 (div_neg_of_neg_of_pos (by exact_mod_cast hz) (by exact_mod_cast hn))
      have hneg : (z : ℚ) / n = -(((-z : ℤ) : ℚ) / n) := by push_cast; ring
      rw [if_neg hq, hneg, Int.ceil_neg, Rat.floor_intCast_div_natCast,
        ← Int.tdiv_eq_ediv_of_nonneg (by omega : 0 ≤ -z), Int.neg_tdiv, neg_neg]

theorem abs_truncate_le (q : ℚ) : |(truncate q : ℚ)| ≤ |q| := by
  unfold truncate
  split
  · rename_i hq
    have hfloor : (0 : ℚ) ≤ (⌊q⌋ : ℚ) := by exact_mod_cast Int.floor_nonneg.2 hq
    rw [abs_of_nonneg hfloor, abs_of_nonneg hq]
    exact Int.floor_le q
  · rename_i hq
    have hlt := not_le.1 hq
    have hceil : (⌈q⌉ : ℚ) ≤ 0 := by exact_mod_cast Int.ceil_le.2 (by exact_mod_cast hlt.le)
    rw [abs_of_nonpos hceil, abs_of_neg hlt]
    exact neg_le_neg (Int.le_ceil q)

/-! ### Splits -/

/-- The share at a place, of which the first `extra` get a unit more. -/
def shareAt (base step : ℤ) (extra i : ℕ) : ℤ := if i < extra then base + step else base

/-- Split an integer into parts. -/
def splitEvenly (total : ℤ) (n : ℕ) : List ℤ :=
  (List.range n).map (shareAt (total.tdiv n) (total.tmod n).sign (total.tmod n).natAbs)

@[simp] theorem length_splitEvenly (total : ℤ) (n : ℕ) : (splitEvenly total n).length = n := by
  simp [splitEvenly]

theorem sum_shareAt (base step : ℤ) {extra n : ℕ} (h : extra ≤ n) :
    ((List.range n).map (shareAt base step extra)).sum = n * base + extra * step := by
  have hrange : ∀ m : ℕ, ((List.range m).map (shareAt base step extra)).sum = m * base + min m extra * step := by
    intro m
    induction m with
    | zero => simp
    | succ m ih =>
      rw [List.range_succ, List.map_append, List.sum_append, ih, List.map_singleton, List.sum_singleton, shareAt]
      split
      · rename_i hlt
        rw [min_eq_left (by omega), min_eq_left (by omega)]
        push_cast
        ring
      · rename_i hge
        rw [min_eq_right (by omega), min_eq_right (by omega)]
        push_cast
        ring
  rw [hrange, min_eq_right (by exact_mod_cast h)]

section Split

variable (total : ℤ) {n : ℕ}

theorem natAbs_tmod_lt (hn : 0 < n) : (total.tmod n).natAbs < n := by
  rw [Int.natAbs_tmod]
  exact Nat.mod_lt _ hn

/-- Nothing is lost. -/
theorem sum_splitEvenly (hn : 0 < n) : (splitEvenly total n).sum = total := by
  unfold splitEvenly
  rw [sum_shareAt _ _ (natAbs_tmod_lt total hn).le, mul_comm ((total.tmod n).natAbs : ℤ), Int.sign_mul_natAbs]
  exact Int.mul_tdiv_add_tmod total n

/-- The quotient and the remainder do not have opposite signs. -/
theorem natAbs_shareAt_extra (hr : total.tmod n ≠ 0) :
    (total.tdiv n + (total.tmod n).sign).natAbs = (total.tdiv n).natAbs + 1 := by
  have hn : (0 : ℤ) ≤ n := Int.natCast_nonneg n
  rcases lt_trichotomy total 0 with hneg | hzero | hpos
  · have hq := Int.tdiv_nonneg (by omega : 0 ≤ -total) hn
    rw [Int.neg_tdiv] at hq
    have hsign : (total.tmod n).sign = -1 := by
      refine Int.sign_eq_neg_one_of_neg (lt_of_le_of_ne ?_ hr)
      have := Int.tmod_nonneg (n : ℤ) (by omega : 0 ≤ -total)
      rw [Int.neg_tmod] at this
      omega
    omega
  · exact absurd (by rw [hzero, Int.zero_tmod]) hr
  · have hq : 0 ≤ total.tdiv n := Int.tdiv_nonneg hpos.le hn
    have hsign : (total.tmod n).sign = 1 :=
      Int.sign_eq_one_of_pos (lt_of_le_of_ne (Int.tmod_nonneg _ hpos.le) hr.symm)
    omega

/-- Shares differ by at most one. -/
theorem splitEvenly_close : ∀ a ∈ splitEvenly total n, ∀ b ∈ splitEvenly total n, |a - b| ≤ 1 := by
  have hsign : |(total.tmod n).sign| ≤ 1 := by
    rcases Int.sign_trichotomy (total.tmod n) with h | h | h <;> simp [h]
  intro a ha b hb
  obtain ⟨i, -, rfl⟩ := List.mem_map.1 ha
  obtain ⟨j, -, rfl⟩ := List.mem_map.1 hb
  rw [abs_le] at hsign
  unfold shareAt
  rw [abs_le]
  split_ifs <;> constructor <;> omega

/-- Shares of a larger magnitude come first. -/
theorem splitEvenly_sorted : (splitEvenly total n).Pairwise fun a b => |b| ≤ |a| := by
  unfold splitEvenly
  rw [List.pairwise_map]
  refine List.pairwise_lt_range.imp fun {i j} hij => ?_
  unfold shareAt
  split_ifs with hj hi hi
  · exact le_rfl
  · omega
  · have hr : total.tmod n ≠ 0 := by
      intro hzero
      rw [hzero] at hi
      cases hi
    rw [Int.abs_eq_natAbs, Int.abs_eq_natAbs, natAbs_shareAt_extra total hr]
    omega
  · exact le_rfl

end Split

end IpeLang.Lib
