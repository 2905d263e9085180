import Mathlib.Order.Compare
import Mathlib.Tactic.FieldSimp
import ScopedValues.Proofs.Numbers.Decimals

/-!
Contract: which double a decimal reads back as.

Owns the interval of rational numbers that round to a double, and the place of the
shortest decimal in it.

Main statement: the shortest decimal of a double lies in its interval, and the intervals
of two doubles of different size have no number in common.
-/

set_option autoImplicit false

namespace ScopedValues

/-! ## Comparison of scaled numbers -/

theorem compare_of_scaled {m n : Nat} {p q c : ℚ} (positive : 0 < c) (left : (m : ℚ) = p * c)
    (right : (n : ℚ) = q * c) : compare m n = compare p q := by
  have order : m < n ↔ p < q := by
    rw [← Nat.cast_lt (α := ℚ), left, right, mul_lt_mul_iff_left₀ positive]
  have orderBack : n < m ↔ q < p := by
    rw [← Nat.cast_lt (α := ℚ), left, right, mul_lt_mul_iff_left₀ positive]
  rcases lt_trichotomy p q with less | rfl | more
  · rw [compare_lt_iff_lt.mpr less, compare_lt_iff_lt.mpr (order.mpr less)]
  · have same : m = n := by
      have := order.not.mpr (lt_irrefl p)
      have := orderBack.not.mpr (lt_irrefl p)
      omega
    rw [compare_eq_iff_eq.mpr rfl, compare_eq_iff_eq.mpr same]
  · rw [compare_gt_iff_gt.mpr more, compare_gt_iff_gt.mpr (orderBack.mpr more)]

theorem Decimal.compareScaled_eq (d : Decimal) (up n down : Nat) :
    d.compareScaled up n down = compare d.value (n * (2 : ℚ) ^ ((down : Int) - up)) := by
  have ten := Decimal.pow_toNat d.exponent
  have two : (2 : ℚ) ^ ((down : Int) - up) * 2 ^ up = 2 ^ down := by
    rw [zpow_sub₀ (by norm_num), zpow_natCast, zpow_natCast]
    exact div_mul_cancel₀ _ (by positivity)
  refine compare_of_scaled (c := 10 ^ (-d.exponent).toNat * 2 ^ up) (by positivity) ?_ ?_
  · simp only [Nat.pow_eq]
    push_cast
    rw [Decimal.value, ← ten]
    ring
  · simp only [Nat.pow_eq]
    push_cast
    rw [← two]
    ring

namespace Double

variable {x y : Double}

/-! ## Fields -/

theorem fractionField_lt (x : Double) : x.fractionField < 4503599627370496 :=
  Nat.mod_lt _ (by decide)

theorem significand_eq (x : Double) :
    x.significand = if x.exponentField = 0 then x.fractionField
      else 4503599627370496 + x.fractionField :=
  rfl

/-- A double is made up of its sign, its exponent and its fraction. -/
theorem eq_of_fields (negative : x.negative = y.negative)
    (exponents : x.exponentField = y.exponentField)
    (fractions : x.fractionField = y.fractionField) : x = y := by
  obtain ⟨bits⟩ := x
  obtain ⟨other⟩ := y
  have bound := bits.toNat_lt
  have boundToo := other.toNat_lt
  simp only [Double.negative, exponentField, fractionField, decide_eq_decide, Nat.pow_eq]
    at negative exponents fractions
  congr 1
  apply UInt64.toNat_inj.mp
  omega

theorem fields_eq (scales : x.scale = y.scale) (significands : x.significand = y.significand) :
    x.exponentField = y.exponentField ∧ x.fractionField = y.fractionField := by
  have bound := x.fractionField_lt
  have boundToo := y.fractionField_lt
  rw [significand_eq, significand_eq] at significands
  unfold scale at scales
  split at significands <;> split at significands <;> omega

theorem significand_pos (nonzero : x.isZero = false) : 0 < x.significand := by
  rw [significand_eq]
  simp only [isZero, Bool.and_eq_false_iff, beq_eq_false_iff_ne] at nonzero
  split <;> omega

/-! ## The interval of a double -/

/-- A quarter of the last place of a finite double. -/
def quarter (x : Double) : ℚ :=
  (2 : ℚ) ^ ((x.scale : Int) - 1076)

theorem quarter_pos (x : Double) : 0 < x.quarter := by
  unfold quarter
  positivity

theorem compareQuarters_eq (x : Double) (d : Decimal) (quarters : Nat) :
    x.compareQuarters d quarters = compare d.value (quarters * x.quarter) := by
  have exponent : ((x.scale - 1076 : Nat) : Int) - (1076 - x.scale : Nat) = x.scale - 1076 := by
    omega
  rw [compareQuarters, Decimal.compareScaled_eq, exponent, quarter]

/-- A rational number that rounds to the absolute value of a finite double. -/
structure Rounds (value : ℚ) (x : Double) : Prop where
  lower : x.lowerEnd * x.quarter ≤ value
  upper : value ≤ x.upperEnd * x.quarter
  atLower : value = x.lowerEnd * x.quarter → x.significand % 2 = 0
  atUpper : value = x.upperEnd * x.quarter → x.significand % 2 = 0

theorem lowerEnd_le (x : Double) : x.lowerEnd * x.quarter ≤ x.upperEnd * x.quarter := by
  refine mul_le_mul_of_nonneg_right ?_ x.quarter_pos.le
  rw [Nat.cast_le, lowerEnd, upperEnd]
  split <;> omega

theorem le_lowerEnd (x : Double) : 4 * x.significand - 2 ≤ x.lowerEnd := by
  rw [lowerEnd]
  split <;> omega

theorem rounds_of_covers {d : Decimal} (covers : x.covers d = true) : Rounds d.value x := by
  rw [Double.covers, compareQuarters_eq, compareQuarters_eq] at covers
  split at covers
  · next above below =>
      rw [compare_gt_iff_gt] at above
      rw [compare_lt_iff_lt] at below
      exact ⟨above.le, below.le, fun atEnd => absurd atEnd above.ne',
        fun atEnd => absurd atEnd below.ne⟩
  · next atEnd =>
      rw [compare_eq_iff_eq] at atEnd
      have even : x.significand % 2 = 0 := by simpa using covers
      exact ⟨atEnd.ge, atEnd.trans_le x.lowerEnd_le, fun _ => even, fun _ => even⟩
  · next atEnd _ =>
      rw [compare_eq_iff_eq] at atEnd
      have even : x.significand % 2 = 0 := by simpa using covers
      exact ⟨x.lowerEnd_le.trans_eq atEnd.symm, atEnd.le, fun _ => even, fun _ => even⟩
  · cases covers

theorem five_pow_mul (n : Nat) : (5 : ℚ) ^ n * 10 ^ (-(n : Int)) = 2 ^ (-(n : Int)) := by
  have factors : (10 : ℚ) = 2 * 5 := by norm_num
  rw [factors, mul_zpow, zpow_neg 5, zpow_natCast, mul_left_comm, mul_inv_cancel₀ (by positivity),
    mul_one]

theorem value_exactDecimal (x : Double) :
    x.exactDecimal.value = (4 * x.significand : Nat) * x.quarter := by
  have five : (5 : ℚ) ^ 1074 * 10 ^ (-1074 : Int) = 2 ^ (-1074 : Int) := five_pow_mul 1074
  have scaled : (2 : ℚ) ^ ((x.scale : Int) - 1076) = 2 ^ x.scale * 2 ^ (-1074 : Int) / 4 := by
    have split : (x.scale : Int) - 1076 = x.scale + -1074 - 2 := by omega
    rw [split, zpow_sub₀ (by norm_num), zpow_add₀ (by norm_num), zpow_natCast]
    norm_num
  rw [Decimal.value, exactDecimal, magnitude, quarter, scaled, ← five]
  simp only [Nat.pow_eq, Nat.cast_mul, Nat.cast_pow, Nat.cast_ofNat]
  -- Nothing below looks into the large powers.
  generalize (5 : ℚ) ^ 1074 = five, (10 : ℚ) ^ (-1074 : Int) = ten
  ring

theorem rounds_exactDecimal (nonzero : x.isZero = false) : Rounds x.exactDecimal.value x := by
  have positive := significand_pos nonzero
  have above : (x.lowerEnd : ℚ) * x.quarter < x.exactDecimal.value := by
    rw [value_exactDecimal]
    refine mul_lt_mul_of_pos_right ?_ x.quarter_pos
    rw [Nat.cast_lt, lowerEnd]
    split <;> omega
  have below : x.exactDecimal.value < x.upperEnd * x.quarter := by
    rw [value_exactDecimal]
    refine mul_lt_mul_of_pos_right ?_ x.quarter_pos
    rw [Nat.cast_lt, upperEnd]
    omega
  exact ⟨above.le, below.le, fun atEnd => absurd atEnd above.ne',
    fun atEnd => absurd atEnd below.ne⟩

theorem covers_of_onGrid? {exponent : Int} {d : Decimal} (found : x.onGrid? exponent = some d) :
    x.covers d = true := by
  unfold onGrid? at found
  simp only at found
  split at found
  · next below above =>
      cases found
      split
      · exact above
      · exact below
  · next below _ =>
      cases found
      exact below
  · next above =>
      cases found
      exact above
  · cases found

/-- The shortest decimal of a finite double other than zero rounds to it. -/
theorem rounds_shortest (nonzero : x.isZero = false) : Rounds x.shortest.value x := by
  unfold shortest
  simp only
  rw [Decimal.value_dropZeros]
  cases found : (List.range 17).findSome? fun (more : Nat) =>
      x.onGrid? (x.leadingExponent - more) with
  | none => exact rounds_exactDecimal nonzero
  | some d =>
      obtain ⟨more, _, onGrid⟩ := List.exists_of_findSome?_eq_some found
      exact rounds_of_covers (covers_of_onGrid? onGrid)

/-! ## Two intervals -/

/-- What rounds to a double other than zero is positive. -/
theorem Rounds.pos {value : ℚ} (rounds : Rounds value x) (nonzero : x.isZero = false) :
    0 < value := by
  have positive := significand_pos nonzero
  refine lt_of_lt_of_le (mul_pos ?_ x.quarter_pos) rounds.lower
  rw [Nat.cast_pos, lowerEnd]
  split <;> omega

/-- The ends of two intervals with a number in common, in the last place of the finer one. -/
theorem Rounds.ends_le {value : ℚ} (left : Rounds value x) (right : Rounds value y)
    (finer : x.scale ≤ y.scale) :
    y.lowerEnd * 2 ^ (y.scale - x.scale) ≤ x.upperEnd ∧
      (y.lowerEnd * 2 ^ (y.scale - x.scale) = x.upperEnd →
        x.significand % 2 = 0 ∧ y.significand % 2 = 0) := by
  have scaled : y.quarter = 2 ^ (y.scale - x.scale) * x.quarter := by
    have split : (y.scale : Int) - 1076 = (y.scale - x.scale : Nat) + ((x.scale : Int) - 1076) := by
      omega
    rw [quarter, quarter, split, zpow_add₀ (by norm_num), zpow_natCast]
  have lower := right.lower
  have upper := left.upper
  have atUpper := left.atUpper
  have atLower := right.atLower
  rw [scaled, ← mul_assoc] at lower atLower
  have positive := x.quarter_pos
  constructor
  · have le := le_of_mul_le_mul_right (lower.trans upper) positive
    exact_mod_cast le
  · intro meet
    have meetCast : (y.lowerEnd : ℚ) * 2 ^ (y.scale - x.scale) = x.upperEnd := by
      exact_mod_cast meet
    rw [meetCast] at lower atLower
    have atEnd := le_antisymm upper lower
    exact ⟨atUpper atEnd, atLower atEnd⟩

/-- A number rounds to one size of double only. -/
theorem Rounds.unique_of_le {value : ℚ} (left : Rounds value x) (right : Rounds value y)
    (finer : x.scale ≤ y.scale) : x.scale = y.scale ∧ x.significand = y.significand := by
  have fraction := x.fractionField_lt
  have fractionToo := y.fractionField_lt
  have size := x.significand_eq
  have sizeToo := y.significand_eq
  rcases Nat.eq_or_lt_of_le finer with same | coarser
  · refine ⟨same, ?_⟩
    obtain ⟨le, parity⟩ := left.ends_le right finer
    obtain ⟨leBack, parityBack⟩ := right.ends_le left same.ge
    rw [same, Nat.sub_self, pow_zero, Nat.mul_one] at le parity leBack parityBack
    rw [upperEnd] at le parity leBack parityBack
    have above := x.le_lowerEnd
    have aboveToo := y.le_lowerEnd
    omega
  · -- The coarser double has its leading bit, so it starts where the finer ones end.
    exfalso
    obtain ⟨le, parity⟩ := left.ends_le right finer
    obtain ⟨more, places⟩ : ∃ more, y.scale - x.scale = more + 1 :=
      ⟨y.scale - x.scale - 1, by omega⟩
    have twice : y.lowerEnd * 2 ≤ y.lowerEnd * 2 ^ (y.scale - x.scale) := by
      rw [places, pow_succ]
      exact Nat.mul_le_mul_left _ (Nat.le_mul_of_pos_left 2 (by positivity))
    have exponent : 1 < y.exponentField := by
      unfold scale at coarser
      omega
    rw [if_neg (by omega)] at sizeToo
    have below : x.upperEnd ≤ 36028797018963966 := by
      rw [upperEnd, size]
      split <;> omega
    have above : 18014398509481983 ≤ y.lowerEnd := by
      rw [lowerEnd, sizeToo]
      split <;> omega
    have meet : y.lowerEnd * 2 ^ (y.scale - x.scale) = x.upperEnd := by omega
    have even := (parity meet).1
    have last : x.upperEnd = 36028797018963966 := by omega
    unfold upperEnd at last
    omega

theorem Rounds.unique {value : ℚ} (left : Rounds value x) (right : Rounds value y) :
    x.scale = y.scale ∧ x.significand = y.significand := by
  rcases Nat.le_total x.scale y.scale with finer | coarser
  · exact left.unique_of_le right finer
  · obtain ⟨scales, significands⟩ := right.unique_of_le left coarser
    exact ⟨scales.symm, significands.symm⟩

end Double

end ScopedValues
