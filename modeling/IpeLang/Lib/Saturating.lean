import Mathlib.Tactic

/-!
# Arithmetic that stays at its bounds

Signed integers of 64 bits are integers here, unsigned ones naturals, and a result beyond the bounds
is the bound. Counters that stay away from them count as those without bounds do.
-/

namespace IpeLang.Lib

/-- A result of 64 bits with sign. -/
def saturate (a : ℤ) : ℤ := max (-2 ^ 63) (min (2 ^ 63 - 1) a)

def saturating_add (a b : ℤ) : ℤ := saturate (a + b)

def saturating_sub (a b : ℤ) : ℤ := saturate (a - b)

/-- The sum of 64 bits without sign. -/
def saturating_add_u64 (a b : ℕ) : ℕ := min (2 ^ 64 - 1) (a + b)

theorem saturate_eq {a : ℤ} (hlow : -2 ^ 63 ≤ a) (hhigh : a < 2 ^ 63) : saturate a = a := by
  unfold saturate
  omega

/-- A counter below the bound. -/
theorem saturating_add_natCast {a b : ℕ} (h : a + b < 2 ^ 63) :
    saturating_add a b = ((a + b : ℕ) : ℤ) := by
  unfold saturating_add
  rw [saturate_eq (by omega) (by omega), Nat.cast_add]

theorem saturating_sub_natCast {a b : ℕ} (h : a < 2 ^ 63) (hle : b ≤ a) :
    saturating_sub a b = ((a - b : ℕ) : ℤ) := by
  unfold saturating_sub
  rw [saturate_eq (by omega) (by omega), Nat.cast_sub hle]

theorem saturating_sub_add_natCast {a b c : ℕ} (h : a + b < 2 ^ 63) (hle : c ≤ a + b) :
    saturating_sub (saturating_add a b) c = ((a + b - c : ℕ) : ℤ) := by
  rw [saturating_add_natCast h, saturating_sub_natCast h hle]

theorem saturating_add_u64_eq {a b : ℕ} (h : a + b < 2 ^ 64) : saturating_add_u64 a b = a + b := by
  unfold saturating_add_u64
  omega

end IpeLang.Lib
