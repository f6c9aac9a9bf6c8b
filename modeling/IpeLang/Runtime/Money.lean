import IpeLang.Lib.Split
import Mathlib.Data.Finite.Prod
import Mathlib.Data.Int.Interval
import Mathlib.Order.Interval.Finset.Nat
import Mathlib.Tactic.FieldSimp
import Mathlib.Tactic.Linarith
import Mathlib.Tactic.Positivity

/-!
# Splitting an amount of money

An amount is split into parts in minor units: all parts get the quotient, and the first ones a unit of the
remainder each. The arithmetic of decimals is a parameter, as the package for it is none of the program.

* `Decimal`, `RustDecimal`: decimals, and the operations on them that are checked;
* `money_allocate`: the split;
* `Exact`: operations without rounding; `Nearest`: quotients are rounded;
* `money_allocate_exact`, `money_allocate_nearest`: nothing is lost and nothing is created.
-/

namespace IpeLang.Runtime.Money

open Lib (truncate splitEvenly shareAt)

/-! ### Decimals -/

/-- A mantissa of 96 bits, scaled by up to 28 places. -/
def Fits (q : ℚ) : Prop := ∃ s < 29, ∃ m : ℤ, |m| < 2 ^ 96 ∧ q = m / 10 ^ s

structure Decimal where
  value : ℚ
  fits : Fits value

theorem Decimal.ext_value {x y : Decimal} (h : x.value = y.value) : x = y := by
  cases x
  cases y
  cases h
  rfl

theorem fits_intCast {z : ℤ} (h : |z| < 2 ^ 96) : Fits z := ⟨0, by decide, z, h, by simp⟩

theorem fits_div_pow {z : ℤ} (h : |z| < 2 ^ 96) {s : ℕ} (hs : s < 29) : Fits (z / 10 ^ s) := ⟨s, hs, z, h, rfl⟩

theorem Fits.abs_lt {q : ℚ} (h : Fits q) : |q| < 2 ^ 96 := by
  obtain ⟨s, -, m, hm, rfl⟩ := h
  have hpow : (1 : ℚ) ≤ 10 ^ s := one_le_pow₀ (by norm_num)
  rw [abs_div, abs_of_pos (by positivity : (0 : ℚ) < 10 ^ s)]
  refine lt_of_le_of_lt (div_le_self (abs_nonneg _) hpow) ?_
  exact_mod_cast hm

theorem abs_truncate_lt {q : ℚ} (h : Fits q) : |truncate q| < 2 ^ 96 := by
  have := lt_of_le_of_lt (Lib.abs_truncate_le q) h.abs_lt
  exact_mod_cast this

def Decimal.ofInt (z : ℤ) (h : |z| < 2 ^ 96) : Decimal := ⟨z, fits_intCast h⟩

/-- The integer part of a decimal. -/
def Decimal.trunc (x : Decimal) : Decimal := Decimal.ofInt (truncate x.value) (abs_truncate_lt x.fits)

theorem abs_toInt_lt (n : Int64) : |n.toInt| < 2 ^ 96 := by
  have hlow := n.le_toInt
  have hhigh := n.toInt_lt
  rw [abs_lt]
  constructor <;> omega

/-- A decimal of an integer. -/
def RD.from (n : Int64) : Decimal := Decimal.ofInt n.toInt (abs_toInt_lt n)

/-- The integer part, if it is in the range of 64 bits. -/
def Decimal.to_i64 (x : Decimal) : Option ℤ :=
  let z := truncate x.value
  if -2 ^ 63 ≤ z ∧ z < 2 ^ 63 then some z else none

/-- The checked operations of the package. -/
structure RustDecimal where
  checked_mul : Decimal → Decimal → Option Decimal
  checked_div : Decimal → Decimal → Option Decimal
  checked_add : Decimal → Decimal → Option Decimal
  checked_sub : Decimal → Decimal → Option Decimal

/-! ### Allocation -/

/-- The factor of the minor units, the largest integer where it does not fit. -/
def factorOf (places : ℕ) : Int64 := if (10 : ℤ) ^ places < 2 ^ 63 then Int64.ofInt (10 ^ places) else Int64.maxValue

def saturating_abs (n : ℤ) : ℤ := min |n| (2 ^ 63 - 1)

def MAX_PARTS : ℤ := 100000

/-- The share at a place, in major units. -/
def share (ops : RustDecimal) (base : Decimal) (step : Int64) (extra_slots : ℤ) (inv_scale : Decimal) (i : ℕ) :
    Option Decimal :=
  (if (i : ℤ) < extra_slots then ops.checked_add base (RD.from step) else some base).bind
    fun share => ops.checked_div share inv_scale

def money_allocate (ops : RustDecimal) (places parts : Int64) (amount : Decimal) : List Decimal :=
  if parts.toInt ≤ 0 then []
  else
    let scale := RD.from (factorOf ((max places.toInt 0).toNat % 2 ^ 32))
    let parts_dec := RD.from parts
    let shares : Option (List Decimal) := do
      let total_minor := (← ops.checked_mul amount scale).trunc
      let base := (← ops.checked_div total_minor parts_dec).trunc
      let base_times_parts ← ops.checked_mul base parts_dec
      let remainder ← ops.checked_sub total_minor base_times_parts
      let rem_int := (remainder.trunc.to_i64).getD 0
      let step : Int64 := if rem_int < 0 then -1 else 1
      if MAX_PARTS < parts.toInt then none
      else (List.range parts.toInt.toNat).mapM (share ops base step (saturating_abs rem_int) scale)
    shares.getD []

/-! ### The package -/

/-- Products, sums and differences are exact where they fit, and so are quotients. -/
structure Arithmetic (ops : RustDecimal) : Prop where
  mul : ∀ x y r, ops.checked_mul x y = some r ↔ r.value = x.value * y.value
  add : ∀ x y r, ops.checked_add x y = some r ↔ r.value = x.value + y.value
  sub : ∀ x y r, ops.checked_sub x y = some r ↔ r.value = x.value - y.value
  div : ∀ x y r, y.value ≠ 0 → r.value = x.value / y.value → ops.checked_div x y = some r

/-- A quotient that does not fit is refused. -/
structure Exact (ops : RustDecimal) : Prop extends Arithmetic ops where
  div_some : ∀ x y r, ops.checked_div x y = some r → r.value = x.value / y.value

/-- A quotient that does not fit is rounded to the nearest decimal. -/
structure Nearest (ops : RustDecimal) : Prop extends Arithmetic ops where
  div_some : ∀ x y r, ops.checked_div x y = some r →
    ∀ r' : Decimal, |r.value - x.value / y.value| ≤ |r'.value - x.value / y.value|

/-! ### The split of an amount -/

/-- What a split has to be: complete, in parts that differ by at most one minor unit, larger ones first. -/
structure Allocated (places n : ℕ) (total : ℤ) (result : List Decimal) : Prop where
  length : result.length = n
  sum : (result.map Decimal.value).sum = total / 10 ^ places
  close : ∀ a ∈ result, ∀ b ∈ result, |a.value - b.value| ≤ 1 / 10 ^ places
  sorted : result.Pairwise fun a b => |b.value| ≤ |a.value|

/-- The parts of an even split, in major units. -/
theorem allocated_of_map_value {places n : ℕ} (hn : 0 < n) {total : ℤ} {result : List Decimal}
    (h : result.map Decimal.value = (splitEvenly total n).map fun z : ℤ => (z : ℚ) / 10 ^ places) :
    Allocated places n total result := by
  have hpow : (0 : ℚ) < 10 ^ places := by positivity
  have hshare : ∀ a ∈ result, ∃ z ∈ splitEvenly total n, a.value = z / 10 ^ places := by
    intro a ha
    have hmem : a.value ∈ result.map Decimal.value := List.mem_map_of_mem ha
    rw [h] at hmem
    obtain ⟨z, hz, heq⟩ := List.mem_map.1 hmem
    exact ⟨z, hz, heq.symm⟩
  refine ⟨?_, ?_, ?_, ?_⟩
  · have := congrArg List.length h
    simpa using this
  · have hsum : ∀ l : List ℤ, (l.map fun z : ℤ => (z : ℚ) / 10 ^ places).sum = (l.sum : ℤ) / 10 ^ places := by
      intro l
      induction l with
      | nil => simp
      | cons z l ih =>
        rw [List.map_cons, List.sum_cons, ih, List.sum_cons]
        push_cast
        ring
    rw [h, hsum, Lib.sum_splitEvenly total hn]
  · intro a ha b hb
    obtain ⟨z, hz, hza⟩ := hshare a ha
    obtain ⟨w, hw, hwb⟩ := hshare b hb
    have hclose : |(z : ℚ) - w| ≤ 1 := by exact_mod_cast Lib.splitEvenly_close total z hz w hw
    rw [hza, hwb, ← sub_div, abs_div, abs_of_pos hpow]
    exact div_le_div_of_nonneg_right hclose hpow.le
  · have hsorted : (result.map Decimal.value).Pairwise fun a b => |b| ≤ |a| := by
      rw [h, List.pairwise_map]
      refine (Lib.splitEvenly_sorted total).imp fun {z w} hzw => ?_
      have : |(w : ℚ)| ≤ |(z : ℚ)| := by exact_mod_cast hzw
      rw [abs_div, abs_div]
      exact div_le_div_of_nonneg_right this (abs_nonneg _)
    exact List.pairwise_map.1 hsorted

theorem mapM_eq_some {α β : Type} {f : α → Option β} {l : List α} (h : ∀ a ∈ l, ∃ b, f a = some b) :
    ∃ r, l.mapM f = some r ∧ r.map some = l.map f := by
  induction l with
  | nil => exact ⟨[], rfl, rfl⟩
  | cons a l ih =>
    have h := List.forall_mem_cons.1 h
    obtain ⟨b, hb⟩ := h.1
    obtain ⟨r, hr, hmap⟩ := ih h.2
    refine ⟨b :: r, ?_, ?_⟩
    · rw [List.mapM_cons, hb, hr]
      rfl
    · rw [List.map_cons, List.map_cons, hmap, hb]

section Allocate

variable {ops : RustDecimal} {places parts : Int64} {amount : Decimal}

/-- The places and the parts that are split. -/
structure InRange (places parts : Int64) : Prop where
  places_nonneg : 0 ≤ places.toInt
  places_le : places.toInt ≤ 18
  parts_pos : 1 ≤ parts.toInt
  parts_le : parts.toInt ≤ MAX_PARTS

/-- The minor units of an amount, toward zero. -/
def minorUnits (places : Int64) (amount : Decimal) : ℤ := truncate (amount.value * 10 ^ places.toInt.toNat)

theorem InRange.factor (h : InRange places parts) :
    (RD.from (factorOf ((max places.toInt 0).toNat % 2 ^ 32))).value = 10 ^ places.toInt.toNat := by
  have hplaces : (max places.toInt 0).toNat % 2 ^ 32 = places.toInt.toNat := by
    have := h.places_nonneg
    have := h.places_le
    omega
  have hle : places.toInt.toNat ≤ 18 := by
    have := h.places_le
    omega
  have hpow : (10 : ℤ) ^ places.toInt.toNat ≤ 10 ^ 18 := pow_le_pow_right₀ (by norm_num) hle
  have hpos : (0 : ℤ) < 10 ^ places.toInt.toNat := by positivity
  rw [hplaces]
  unfold RD.from Decimal.ofInt factorOf
  rw [if_pos (by omega)]
  dsimp only
  rw [Int64.toInt_ofInt_of_le (by omega) (by omega)]
  push_cast
  rfl

theorem InRange.parts_dec (h : InRange places parts) : (RD.from parts).value = parts.toInt.toNat := by
  have hpos := h.parts_pos
  have : ((parts.toInt.toNat : ℕ) : ℤ) = parts.toInt := Int.toNat_of_nonneg (by omega)
  unfold RD.from Decimal.ofInt
  dsimp only
  rw [← this]
  push_cast
  rfl

/-- A share is computed without a refusal. -/
theorem share_eq (h : Arithmetic ops) (hrange : InRange places parts) {total : ℤ} (htotal : |total| < 2 ^ 96)
    {base scale : Decimal} {n : ℕ} (hbase : base.value = total.tdiv n)
    (hscale : scale.value = 10 ^ places.toInt.toNat) (step : Int64)
    (hstep : total.tmod n ≠ 0 → step.toInt = (total.tmod n).sign) (i : ℕ) :
    ∃ r, share ops base step (total.tmod n).natAbs scale i = some r ∧
      r.value = (shareAt (total.tdiv n) (total.tmod n).sign (total.tmod n).natAbs i : ℤ) / 10 ^ places.toInt.toNat := by
  set z := shareAt (total.tdiv n) (total.tmod n).sign (total.tmod n).natAbs i with hz
  have hquot : |total.tdiv n| ≤ |total| := by
    rw [Int.abs_eq_natAbs, Int.abs_eq_natAbs, Int.natAbs_tdiv]
    exact_mod_cast Nat.div_le_self _ _
  -- a unit more fits: there is a remainder only if the quotient is at most half of the total
  have hsmall : |z| < 2 ^ 96 := by
    rw [hz, shareAt]
    split
    · rename_i hi
      have hr : total.tmod n ≠ 0 := by
        intro hzero
        rw [hzero] at hi
        cases hi
      have hn : n ≠ 1 := by
        rintro rfl
        exact hr (Int.tmod_one total)
      have hhalf : 2 * (total.tdiv n).natAbs ≤ total.natAbs := by
        rw [Int.natAbs_tdiv, Int.natAbs_natCast]
        change 2 * (total.natAbs / n) ≤ total.natAbs
        rcases Nat.lt_or_ge n 2 with hlt | hge
        · have hzero : n = 0 := by omega
          rw [hzero, Nat.div_zero]
          exact Nat.zero_le _
        · calc 2 * (total.natAbs / n) ≤ n * (total.natAbs / n) := Nat.mul_le_mul_right _ hge
            _ ≤ total.natAbs := Nat.mul_div_le _ _
      rw [Int.abs_eq_natAbs, Lib.natAbs_shareAt_extra total hr]
      rw [Int.abs_eq_natAbs] at htotal
      omega
    · exact lt_of_le_of_lt hquot htotal
  have hshare : (if ((i : ℕ) : ℤ) < ((total.tmod n).natAbs : ℤ) then ops.checked_add base (RD.from step)
      else some base) = some ⟨z, fits_intCast hsmall⟩ := by
    split
    · rename_i hi
      have hi : i < (total.tmod n).natAbs := by exact_mod_cast hi
      have hr : total.tmod n ≠ 0 := by
        intro hzero
        rw [hzero] at hi
        cases hi
      have hzeq : z = total.tdiv n + (total.tmod n).sign := if_pos hi
      have hcast : (z : ℚ) = total.tdiv n + ((total.tmod n).sign : ℤ) := by
        rw [hzeq]
        push_cast
        rfl
      refine (h.add _ _ _).2 ?_
      rw [hbase]
      unfold RD.from Decimal.ofInt
      dsimp only
      rw [hstep hr]
      exact hcast
    · rename_i hi
      have hzeq : z = total.tdiv n := if_neg (by exact_mod_cast hi)
      have hcast : (z : ℚ) = total.tdiv n := by rw [hzeq]
      exact congrArg some (Decimal.ext_value (hbase.trans hcast.symm))
  refine ⟨⟨z / 10 ^ places.toInt.toNat, fits_div_pow hsmall ?_⟩, ?_, rfl⟩
  · have := hrange.places_le
    omega
  · unfold share
    rw [hshare, Option.bind_some]
    refine h.div _ _ _ ?_ ?_
    · rw [hscale]
      positivity
    · rw [hscale]

/-- The split goes as it should once the quotient has the right integer part. -/
theorem money_allocate_of_div (h : Arithmetic ops) (hrange : InRange places parts)
    (hquot : ∀ total_minor q : Decimal, total_minor.value = minorUnits places amount →
      ops.checked_div total_minor (RD.from parts) = some q →
        truncate q.value = (minorUnits places amount).tdiv parts.toInt.toNat) :
    (money_allocate ops places parts amount = [] ∧
        (¬ Fits (amount.value * 10 ^ places.toInt.toNat) ∨
          ¬ Fits (minorUnits places amount / parts.toInt.toNat))) ∨
      Allocated places.toInt.toNat parts.toInt.toNat (minorUnits places amount)
        (money_allocate ops places parts amount) := by
  set total := minorUnits places amount with htotal
  set n := parts.toInt.toNat with hn
  have hnpos : 0 < n := by
    have := hrange.parts_pos
    omega
  unfold money_allocate
  rw [if_neg (by have := hrange.parts_pos; omega)]
  set scale := RD.from (factorOf ((max places.toInt 0).toNat % 2 ^ 32)) with hscale
  have hfactor : scale.value = 10 ^ places.toInt.toNat := hrange.factor
  have hparts : (RD.from parts).value = n := hrange.parts_dec
  simp only [Option.bind_eq_bind]
  -- The two refusals: the minor units do not fit, or their quotient does not.
  cases hmul : ops.checked_mul amount scale with
  | none =>
    refine Or.inl ⟨rfl, Or.inl fun hfits => ?_⟩
    have := (h.mul amount scale ⟨_, hfits⟩).2 (by rw [hfactor])
    rw [hmul] at this
    cases this
  | some product =>
    have hproduct := (h.mul _ _ _).1 hmul
    rw [hfactor] at hproduct
    have htm : product.trunc.value = total := by
      unfold Decimal.trunc Decimal.ofInt
      dsimp only
      rw [hproduct, htotal]
      rfl
    have hbound : |total| < 2 ^ 96 := by
      have := abs_truncate_lt product.fits
      rw [hproduct] at this
      exact this
    rw [Option.bind_some]
    cases hdiv : ops.checked_div product.trunc (RD.from parts) with
    | none =>
      refine Or.inl ⟨rfl, Or.inr fun hfits => ?_⟩
      have := h.div product.trunc (RD.from parts) ⟨_, hfits⟩ (by rw [hparts]; exact_mod_cast hnpos.ne')
        (by rw [htm, hparts])
      rw [hdiv] at this
      cases this
    | some q =>
      have hbase : q.trunc.value = total.tdiv n := by
        unfold Decimal.trunc Decimal.ofInt
        dsimp only
        rw [hquot _ _ htm hdiv]
      have hquot_le : |total.tdiv n * n| ≤ |total| := by
        rw [Int.abs_eq_natAbs, Int.abs_eq_natAbs, Int.natAbs_mul, Int.natAbs_tdiv]
        exact_mod_cast Nat.div_mul_le_self _ _
      have hrem_lt := Lib.natAbs_tmod_lt total hnpos
      have hn_le : n ≤ 100000 := by
        have := hrange.parts_le
        unfold MAX_PARTS at this
        omega
      have hrem_bound : |total.tmod n| < 2 ^ 96 := by
        rw [Int.abs_eq_natAbs]
        omega
      set product' := Decimal.ofInt (total.tdiv n * n) (lt_of_le_of_lt hquot_le hbound) with hproduct'
      set remainder := Decimal.ofInt (total.tmod n) hrem_bound with hremainder
      have hmul' : ops.checked_mul q.trunc (RD.from parts) = some product' := by
        refine (h.mul _ _ _).2 ?_
        rw [hbase, hparts, hproduct', Decimal.ofInt]
        push_cast
        rfl
      have hsub : ops.checked_sub product.trunc product' = some remainder := by
        refine (h.sub _ _ _).2 ?_
        have hmod : total.tmod n = total - total.tdiv n * n := by rw [Int.tmod_def, mul_comm]
        rw [htm, hproduct', hremainder]
        unfold Decimal.ofInt
        dsimp only
        rw [hmod]
        push_cast
        rfl
      have hto : remainder.trunc.to_i64 = some (total.tmod n) := by
        rw [hremainder]
        unfold Decimal.trunc Decimal.to_i64 Decimal.ofInt
        dsimp only
        rw [Lib.truncate_intCast, Lib.truncate_intCast, if_pos (by omega)]
      have hextra : saturating_abs (total.tmod n) = (total.tmod n).natAbs := by
        unfold saturating_abs
        rw [Int.abs_eq_natAbs]
        omega
      have hstep : total.tmod n ≠ 0 →
          (if total.tmod n < 0 then (-1 : Int64) else 1).toInt = (total.tmod n).sign := by
        intro hr
        split
        · rename_i hneg
          rw [Int.sign_eq_neg_one_of_neg hneg]
          rfl
        · rw [Int.sign_eq_one_of_pos (by omega)]
          rfl
      -- Every part is the quotient, with one more of the remainder's sign for the first ones.
      have hshare := share_eq h hrange hbound hbase hfactor _ hstep
      obtain ⟨r, hr, hmap⟩ := mapM_eq_some (l := List.range n) fun i _ => (hshare i).imp fun _ hr => hr.1
      rw [Option.bind_some, hmul', Option.bind_some, hsub, Option.bind_some, hto, Option.getD_some,
        hextra, if_neg (by have := hrange.parts_le; omega), hr, Option.getD_some]
      refine Or.inr (allocated_of_map_value hnpos ?_)
      have hvalues : ∀ i, (share ops q.trunc (if total.tmod n < 0 then -1 else 1) (total.tmod n).natAbs scale i).map
          Decimal.value = some (((shareAt (total.tdiv n) (total.tmod n).sign (total.tmod n).natAbs i : ℤ) : ℚ) /
            10 ^ places.toInt.toNat) := by
        intro i
        obtain ⟨d, hd, hvalue⟩ := hshare i
        rw [hd, Option.map_some, hvalue]
      have hsome : (r.map Decimal.value).map some =
          ((splitEvenly total n).map fun z : ℤ => (z : ℚ) / 10 ^ places.toInt.toNat).map some := by
        rw [splitEvenly, List.map_map, List.map_map, List.map_map]
        calc r.map (some ∘ Decimal.value) = (r.map some).map (Option.map Decimal.value) := by
              rw [List.map_map]
              rfl
          _ = _ := by
              rw [hmap, List.map_map]
              exact List.map_congr_left fun i _ => hvalues i
      exact List.map_injective_iff.2 (Option.some_injective _) hsome

/-- Where no operation rounds, a split that is not refused is complete, and it is refused only if the minor
units or their quotient do not fit. -/
theorem money_allocate_exact (h : Exact ops) (hrange : InRange places parts) :
    (money_allocate ops places parts amount ≠ [] →
      Allocated places.toInt.toNat parts.toInt.toNat (minorUnits places amount)
        (money_allocate ops places parts amount)) ∧
    (money_allocate ops places parts amount = [] →
      ¬ Fits (amount.value * 10 ^ places.toInt.toNat) ∨ ¬ Fits (minorUnits places amount / parts.toInt.toNat)) := by
  have hpos := hrange.parts_pos
  have hquot : ∀ total_minor q : Decimal, total_minor.value = minorUnits places amount →
      ops.checked_div total_minor (RD.from parts) = some q →
        truncate q.value = (minorUnits places amount).tdiv parts.toInt.toNat := by
    intro total_minor q htotal hq
    rw [h.div_some _ _ _ hq, htotal, hrange.parts_dec, Lib.truncate_intCast_div]
  rcases money_allocate_of_div h.toArithmetic hrange hquot with ⟨hnil, hrefused⟩ | hallocated
  · exact ⟨fun hne => absurd hnil hne, fun _ => hrefused⟩
  · refine ⟨fun _ => hallocated, fun hnil => ?_⟩
    have hlength := hallocated.length
    rw [hnil, List.length_nil] at hlength
    omega

end Allocate

/-! ### Operations without rounding -/

theorem fits_iff (q : ℚ) : (∃ s < 29, (q * 10 ^ s).den = 1 ∧ |(q * 10 ^ s).num| < 2 ^ 96) ↔ Fits q := by
  constructor
  · rintro ⟨s, hs, hden, hnum⟩
    refine ⟨s, hs, (q * 10 ^ s).num, hnum, ?_⟩
    have hpow : (10 : ℚ) ^ s ≠ 0 := by positivity
    rw [Rat.den_eq_one_iff] at hden
    rw [hden, mul_div_cancel_right₀ _ hpow]
  · rintro ⟨s, hs, m, hm, rfl⟩
    have hpow : (10 : ℚ) ^ s ≠ 0 := by positivity
    refine ⟨s, hs, ?_⟩
    rw [div_mul_cancel₀ _ hpow, Rat.den_intCast, Rat.num_intCast]
    exact ⟨rfl, hm⟩

instance decidableFits : DecidablePred Fits := fun q => decidable_of_iff _ (fits_iff q)

/-- The decimal of a value, if it fits. -/
def fit (q : ℚ) : Option Decimal := if h : Fits q then some ⟨q, h⟩ else none

theorem fit_eq_some_iff (q : ℚ) (r : Decimal) : fit q = some r ↔ r.value = q := by
  unfold fit
  constructor
  · intro h
    split at h
    · cases h
      rfl
    · cases h
  · rintro rfl
    rw [dif_pos r.fits]

def exactOps : RustDecimal where
  checked_mul x y := fit (x.value * y.value)
  checked_div x y := fit (x.value / y.value)
  checked_add x y := fit (x.value + y.value)
  checked_sub x y := fit (x.value - y.value)

theorem exact_exactOps : Exact exactOps where
  mul _ _ r := fit_eq_some_iff _ r
  add _ _ r := fit_eq_some_iff _ r
  sub _ _ r := fit_eq_some_iff _ r
  div _ _ r _ h := (fit_eq_some_iff _ r).2 h
  div_some _ _ r h := (fit_eq_some_iff _ r).1 h

/-- A bill of 100.01 for four. -/
def bill : Decimal := ⟨10001 / 100, 2, by decide, 10001, by decide, by norm_num⟩

example : (money_allocate exactOps 2 4 bill).map Decimal.value = [2501 / 100, 25, 25, 25] := by decide +kernel

theorem money_allocate_exact_bill :
    (money_allocate exactOps 2 4 bill ≠ [] → Allocated 2 4 (minorUnits 2 bill) (money_allocate exactOps 2 4 bill)) ∧
    (money_allocate exactOps 2 4 bill = [] →
      ¬ Fits (bill.value * 10 ^ 2) ∨ ¬ Fits (minorUnits 2 bill / (4 : ℕ))) :=
  money_allocate_exact exact_exactOps ⟨by decide, by decide, by decide, by decide⟩

/-! ### Quotients that are rounded -/

/-- Six places more than the quotient needs. -/
theorem nearest_close {x q : ℚ} (hq : ∀ r : Decimal, |q - x| ≤ |r.value - x|) (hx : |x| * 10 ^ 6 ≤ 2 ^ 96 - 1) :
    |q - x| < 1 / 10 ^ 6 := by
  have hpow : (0 : ℚ) < 10 ^ 6 := by norm_num
  have hfloor := Int.floor_le (x * 10 ^ 6)
  have hlt := Int.lt_floor_add_one (x * 10 ^ 6)
  have habs : |x * 10 ^ 6| ≤ 2 ^ 96 - 1 := by rwa [abs_mul, abs_of_pos hpow]
  have hbound : |⌊x * 10 ^ 6⌋| < 2 ^ 96 := by
    have hlow : (-(2 ^ 96 - 1) : ℤ) ≤ ⌊x * 10 ^ 6⌋ := by
      refine Int.le_floor.2 ?_
      push_cast
      linarith [(abs_le.1 habs).1]
    have hhigh : ⌊x * 10 ^ 6⌋ ≤ (2 ^ 96 - 1 : ℤ) := by
      have := le_trans hfloor (abs_le.1 habs).2
      exact_mod_cast this
    rw [abs_lt]
    constructor <;> omega
  refine lt_of_le_of_lt (hq ⟨_, fits_div_pow hbound (by decide : 6 < 29)⟩) ?_
  dsimp only
  rw [abs_sub_comm, abs_of_nonneg]
  · rw [sub_lt_iff_lt_add, ← add_div, lt_div_iff₀ hpow, add_comm]
    exact hlt
  · rw [sub_nonneg, div_le_iff₀ hpow]
    exact hfloor

/-- The quotient of an integer by a small one keeps its integer part when it is rounded. -/
theorem truncate_nearest {total : ℤ} {n : ℕ} (hn : 0 < n) (hle : n ≤ 100000) (htotal : |total| * 10 ^ 6 < 2 ^ 96)
    {q : ℚ} (hq : ∀ r : Decimal, |q - total / n| ≤ |r.value - total / n|) : truncate q = total.tdiv n := by
  have hnq : (0 : ℚ) < n := by exact_mod_cast hn
  have hnle : (1 : ℚ) / 100000 ≤ 1 / n := one_div_le_one_div_of_le hnq (by exact_mod_cast hle)
  have hx : |(total : ℚ) / n| * 10 ^ 6 ≤ 2 ^ 96 - 1 := by
    have h1 : |(total : ℚ) / n| ≤ |(total : ℚ)| := by
      rw [abs_div, abs_of_pos hnq]
      exact div_le_self (abs_nonneg _) (by exact_mod_cast hn)
    have h2 : |(total : ℚ)| * 10 ^ 6 ≤ 2 ^ 96 - 1 := by
      have : |total| * 10 ^ 6 ≤ 2 ^ 96 - 1 := by omega
      exact_mod_cast this
    exact le_trans (mul_le_mul_of_nonneg_right h1 (by norm_num)) h2
  have hclose := abs_lt.1 (nearest_close hq hx)
  have hdecomp : (total : ℚ) / n = total.tdiv n + (total.tmod n : ℤ) / n := by
    have : (total : ℚ) = n * total.tdiv n + (total.tmod n : ℤ) := by exact_mod_cast (Int.mul_tdiv_add_tmod total n).symm
    rw [this, add_div, mul_div_cancel_left₀ _ hnq.ne']
  have hlt := Lib.natAbs_tmod_lt total hn
  by_cases hr : total.tmod n = 0
  · have hint : |total.tdiv n| < 2 ^ 96 := by
      have : (total.tdiv n).natAbs ≤ total.natAbs := by
        rw [Int.natAbs_tdiv]
        exact Nat.div_le_self _ _
      rw [Int.abs_eq_natAbs] at htotal ⊢
      omega
    have hzero := hq (Decimal.ofInt _ hint)
    rw [hdecomp, hr, Decimal.ofInt] at hzero
    have hqk : q = total.tdiv n := by simpa [sub_eq_zero] using hzero
    rw [hqk, Lib.truncate_intCast]
  · have hsame := Lib.natAbs_shareAt_extra total hr
    rcases lt_or_gt_of_ne hr with hneg | hpos
    · -- the total is negative, and the quotient lies in the unit below its integer part
      rw [Int.sign_eq_neg_one_of_neg hneg] at hsame
      have hk : total.tdiv n ≤ 0 := by omega
      have hlow : (-(n - 1 : ℚ)) / n ≤ (total.tmod n : ℤ) / n := by
        refine div_le_div_of_nonneg_right ?_ hnq.le
        have : -((n : ℤ) - 1) ≤ total.tmod n := by omega
        exact_mod_cast this
      have hhigh : ((total.tmod n : ℤ) : ℚ) / n ≤ -1 / n := by
        refine div_le_div_of_nonneg_right ?_ hnq.le
        have : total.tmod n ≤ -1 := by omega
        exact_mod_cast this
      have hdiv : (-(n - 1 : ℚ)) / n = -1 + 1 / n := by field_simp; ring
      have hneg' : (-1 : ℚ) / n = -(1 / n) := by ring
      rw [hdecomp] at hclose
      have hkq : ((total.tdiv n : ℤ) : ℚ) ≤ 0 := by exact_mod_cast hk
      have hq1 : q < total.tdiv n := by linarith
      have hq2 : ((total.tdiv n : ℤ) : ℚ) - 1 < q := by linarith
      unfold truncate
      rw [if_neg (by linarith), Int.ceil_eq_iff]
      exact ⟨hq2, hq1.le⟩
    · rw [Int.sign_eq_one_of_pos hpos] at hsame
      have hk : 0 ≤ total.tdiv n := by omega
      have hhigh : ((total.tmod n : ℤ) : ℚ) / n ≤ (n - 1 : ℚ) / n := by
        refine div_le_div_of_nonneg_right ?_ hnq.le
        have : total.tmod n ≤ (n : ℤ) - 1 := by omega
        exact_mod_cast this
      have hlow : (1 : ℚ) / n ≤ (total.tmod n : ℤ) / n := by
        refine div_le_div_of_nonneg_right ?_ hnq.le
        exact_mod_cast hpos
      have hdiv : (n - 1 : ℚ) / n = 1 - 1 / n := by field_simp
      rw [hdecomp] at hclose
      have hkq : (0 : ℚ) ≤ (total.tdiv n : ℤ) := by exact_mod_cast hk
      have hq1 : ((total.tdiv n : ℤ) : ℚ) < q := by linarith
      have hq2 : q < (total.tdiv n : ℤ) + 1 := by linarith
      unfold truncate
      rw [if_pos (by linarith), Int.floor_eq_iff]
      exact ⟨hq1.le, hq2⟩

/-- Where quotients are rounded, the split is complete up to six places below the largest decimal. -/
theorem money_allocate_nearest {ops : RustDecimal} (h : Nearest ops) {places parts : Int64} {amount : Decimal}
    (hrange : InRange places parts) (hamount : |minorUnits places amount| * 10 ^ 6 < 2 ^ 96)
    (hne : money_allocate ops places parts amount ≠ []) :
    Allocated places.toInt.toNat parts.toInt.toNat (minorUnits places amount)
      (money_allocate ops places parts amount) := by
  have hpos := hrange.parts_pos
  have hle := hrange.parts_le
  unfold MAX_PARTS at hle
  have hquot : ∀ total_minor q : Decimal, total_minor.value = minorUnits places amount →
      ops.checked_div total_minor (RD.from parts) = some q →
        truncate q.value = (minorUnits places amount).tdiv parts.toInt.toNat := by
    intro total_minor q htotal hq
    have hnearest := h.div_some _ _ _ hq
    rw [htotal, hrange.parts_dec] at hnearest
    exact truncate_nearest (by omega) (by omega) hamount hnearest
  rcases money_allocate_of_div h.toArithmetic hrange hquot with ⟨hnil, -⟩ | hallocated
  · exact absurd hnil hne
  · exact hallocated

/-- There are finitely many decimals, so every value has a nearest one. -/
theorem exists_nearest (x : ℚ) : ∃ r : Decimal, ∀ r' : Decimal, |r.value - x| ≤ |r'.value - x| := by
  have hfinite : {q : ℚ | Fits q}.Finite := by
    refine Set.Finite.subset ((Set.finite_Iio 29).image2 (fun (s : ℕ) (m : ℤ) => (m : ℚ) / 10 ^ s)
      (Set.finite_Ioo (-2 ^ 96) (2 ^ 96))) ?_
    rintro q ⟨s, hs, m, hm, rfl⟩
    exact ⟨s, hs, m, ⟨(abs_lt.1 hm).1, (abs_lt.1 hm).2⟩, rfl⟩
  have hzero : Fits 0 := ⟨0, by decide, 0, by decide, by norm_num⟩
  obtain ⟨q, hq, hmin⟩ := hfinite.exists_minimalFor (fun q => |q - x|) _ ⟨0, hzero⟩
  refine ⟨⟨q, hq⟩, fun r' => ?_⟩
  rcases le_total |q - x| |r'.value - x| with hle | hle
  · exact hle
  · exact hmin r'.fits hle

/-- Operations that round quotients. -/
noncomputable def nearestOps : RustDecimal :=
  { exactOps with checked_div := fun x y => some (exists_nearest (x.value / y.value)).choose }

theorem nearest_nearestOps : Nearest nearestOps where
  mul _ _ r := fit_eq_some_iff _ r
  add _ _ r := fit_eq_some_iff _ r
  sub _ _ r := fit_eq_some_iff _ r
  div x y r _ h := by
    have hmin := (exists_nearest (x.value / y.value)).choose_spec r
    have hself : |r.value - x.value / y.value| = 0 := by rw [h, sub_self, abs_zero]
    rw [hself] at hmin
    have heq := sub_eq_zero.1 (abs_eq_zero.1 (le_antisymm hmin (abs_nonneg _)))
    exact congrArg some (Decimal.ext_value (heq.trans h.symm))
  div_some x y r h := by
    cases h
    exact (exists_nearest (x.value / y.value)).choose_spec

end IpeLang.Runtime.Money
