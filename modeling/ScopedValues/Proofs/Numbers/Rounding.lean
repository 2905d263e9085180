import Mathlib.Algebra.Order.Field.Power
import Mathlib.Data.Rat.Floor
import Mathlib.Tactic.Positivity
import Mathlib.Tactic.Ring
import ScopedValues.Number.Double

/-!
Contract: doubles as rational numbers, rounded to whole ones.

Owns the rational number that a finite double stands for, and rounding toward zero.

Main statement: the whole part of a double, with its sign, is the number that the double stands
for, rounded toward zero.

Does not own infinities and NaNs, which stand for no number.
-/

set_option autoImplicit false

namespace ScopedValues

/-- A rational number rounded toward zero to a whole one. -/
def towardZero (q : ℚ) : ℤ :=
  if 0 ≤ q then ⌊q⌋ else ⌈q⌉

theorem towardZero_of_nonneg {q : ℚ} (nonneg : 0 ≤ q) : towardZero q = ⌊q⌋ :=
  if_pos nonneg

/-- Rounding toward zero does not look at the sign. -/
theorem towardZero_neg (q : ℚ) : towardZero (-q) = -towardZero q := by
  rcases lt_trichotomy q 0 with below | rfl | above
  · rw [towardZero, towardZero, if_pos (by linarith), if_neg (not_le.mpr below), Int.floor_neg]
  · rw [neg_zero, towardZero_of_nonneg le_rfl, Int.floor_zero, neg_zero]
  · rw [towardZero, towardZero, if_neg (by linarith), if_pos above.le, Int.ceil_neg]

/-- What lies above minus one is rounded to zero or more. -/
theorem towardZero_nonneg_iff (q : ℚ) : 0 ≤ towardZero q ↔ -1 < q := by
  rw [towardZero]
  split
  · next nonneg => exact iff_of_true (Int.floor_nonneg.mpr nonneg) (by linarith)
  · have above : 0 ≤ ⌈q⌉ ↔ -1 < ⌈q⌉ := by omega
    rw [above, Int.lt_ceil, Int.cast_neg, Int.cast_one]

namespace Double

/-- The absolute value of a finite double, as a rational number. -/
def absolute (x : Double) : ℚ :=
  x.significand * (2 : ℚ) ^ ((x.scale : ℤ) - (1074 : ℕ))

/-- The rational number that a finite double stands for. -/
def exact (x : Double) : ℚ :=
  if x.negative then -x.absolute else x.absolute

theorem natCast_shifted (n up down : ℕ) :
    ((n * Nat.pow 2 up / Nat.pow 2 down : ℕ) : ℤ) = ⌊n * (2 : ℚ) ^ ((up : ℤ) - down)⌋ := by
  have quotient : ((n * 2 ^ up : ℕ) : ℚ) / (2 ^ down : ℕ) = n * (2 : ℚ) ^ ((up : ℤ) - down) := by
    rw [Nat.cast_mul, Nat.cast_pow, Nat.cast_pow, zpow_sub₀ two_ne_zero, zpow_natCast,
      zpow_natCast, mul_div_assoc]
    rfl
  rw [Nat.pow_eq, Nat.pow_eq, ← quotient, Rat.floor_natCast_div_natCast]
  rfl

theorem wholePart_eq (x : Double) : (x.wholePart : ℤ) = towardZero x.absolute := by
  have nonneg : 0 ≤ x.absolute := by
    rw [absolute]
    positivity
  rw [towardZero_of_nonneg nonneg, absolute, wholePart, magnitude]
  -- The powers are too large to be multiplied out.
  generalize 1074 = unit
  exact natCast_shifted x.significand x.scale unit

/-- The whole part with its sign is what the number is rounded to. -/
theorem truncated_eq_towardZero (x : Double) : x.truncated = towardZero x.exact := by
  rw [truncated, exact]
  split
  · rw [towardZero_neg, wholePart_eq]
  · exact wholePart_eq x

end Double

end ScopedValues
