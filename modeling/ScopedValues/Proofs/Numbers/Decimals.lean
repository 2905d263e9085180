import Mathlib.Algebra.Order.Field.Power
import Mathlib.Data.Rat.Defs
import Mathlib.Tactic.Positivity
import Mathlib.Tactic.Ring
import ScopedValues.Number.Text

/-!
Contract: decimals as rational numbers, and the numbers that digits spell.

Owns the value of a decimal, the value that a text of digits with at most one point is
read as, and the characters of such a text.

Main statement: a decimal that is written out with a point is read back as its value.
-/

set_option autoImplicit false

namespace ScopedValues.Decimal

/-- The rational number that a decimal stands for. -/
def value (d : Decimal) : ℚ :=
  d.digits * (10 : ℚ) ^ d.exponent

theorem value_dropZeros (fuel : Nat) (d : Decimal) : (d.dropZeros fuel).value = d.value := by
  induction fuel generalizing d with
  | zero => rfl
  | succ fuel inductionHypothesis =>
      rw [dropZeros]
      split
      · next divides =>
          have whole : d.digits = 10 * (d.digits / 10) := by omega
          rw [inductionHypothesis, value, value, zpow_add_one₀ (by norm_num)]
          conv_rhs => rw [whole]
          push_cast
          ring
      · rfl

/-- Powers of ten as natural numbers, one of which is 1. -/
theorem pow_toNat (exponent : Int) :
    (10 : ℚ) ^ exponent * 10 ^ (-exponent).toNat = 10 ^ exponent.toNat := by
  rw [← zpow_natCast, ← zpow_natCast, ← zpow_add₀ (by norm_num)]
  congr 1
  omega

/-! ## Reading digits -/

/-- The number that digits with at most one point among them spell. -/
def reading (chars : List Char) : ℚ :=
  Nat.ofDigitChars 10 (chars.filter (· != '.')) 0 / 10 ^ (chars.dropWhile (· != '.')).tail.length

def IsNumeral (chars : List Char) : Prop :=
  ∀ c ∈ chars, c.isDigit = true

theorem IsNumeral.ne_point {chars : List Char} (numeral : IsNumeral chars) :
    ∀ c ∈ chars, (c != '.') = true := by
  intro c member
  have digit := numeral c member
  rw [bne_iff_ne]
  rintro rfl
  exact absurd digit (by decide)

theorem IsNumeral.append {first second : List Char} (left : IsNumeral first)
    (right : IsNumeral second) : IsNumeral (first ++ second) :=
  fun c member => (List.mem_append.mp member).elim (left c) (right c)

theorem isNumeral_toDigits (n : Nat) : IsNumeral (Nat.toDigits 10 n) :=
  fun _ member => Nat.isDigit_of_mem_toDigits (by decide) (by decide) member

theorem isNumeral_zeros (count : Nat) : IsNumeral (List.replicate count '0') := by
  intro c member
  rw [List.eq_of_mem_replicate member]
  decide

theorem reading_of_whole {whole : List Char} (numeral : IsNumeral whole) :
    reading whole = Nat.ofDigitChars 10 whole 0 := by
  have nothing : whole.dropWhile (· != '.') = [] := by
    rw [← List.append_nil whole, List.dropWhile_append_of_pos numeral.ne_point, List.dropWhile_nil]
  rw [reading, List.filter_eq_self.mpr numeral.ne_point, nothing]
  simp

theorem reading_of_point {whole fraction : List Char} (numeral : IsNumeral whole)
    (numeralToo : IsNumeral fraction) :
    reading (whole ++ '.' :: fraction) =
      Nat.ofDigitChars 10 (whole ++ fraction) 0 / 10 ^ fraction.length := by
  rw [reading, List.filter_append, List.filter_cons_of_neg (by decide),
    List.filter_eq_self.mpr numeral.ne_point, List.filter_eq_self.mpr numeralToo.ne_point,
    List.dropWhile_append_of_pos numeral.ne_point, List.dropWhile_cons_of_neg (by decide),
    List.tail_cons]

/-! ## Writing decimals out -/

theorem toList_repr (n : Nat) : (Nat.repr n).toList = Nat.toDigits 10 n := by
  rw [Nat.repr_eq_ofList_toDigits, String.toList_ofList]

/-- A text of digits, or one of digits, a point and more digits. -/
inductive Spells (value : ℚ) : List Char → Prop where
  | whole {whole : List Char} (numeral : IsNumeral whole) (nonempty : whole ≠ [])
      (same : (Nat.ofDigitChars 10 whole 0 : ℚ) = value) : Spells value whole
  | point {whole fraction : List Char} (numeral : IsNumeral whole) (nonempty : whole ≠ [])
      (numeralToo : IsNumeral fraction)
      (same : (Nat.ofDigitChars 10 (whole ++ fraction) 0 : ℚ) = value * 10 ^ fraction.length) :
      Spells value (whole ++ '.' :: fraction)

theorem Spells.reading_eq {value : ℚ} {chars : List Char} (spells : Spells value chars) :
    reading chars = value := by
  cases spells with
  | whole numeral _ same => rw [reading_of_whole numeral, same]
  | point numeral _ numeralToo same =>
      rw [reading_of_point numeral numeralToo, same]
      exact mul_div_cancel_right₀ value (by positivity)

theorem Spells.mem {value : ℚ} {chars : List Char} (spells : Spells value chars) :
    ∀ c ∈ chars, c.isDigit = true ∨ c = '.' := by
  intro c member
  cases spells with
  | whole numeral => exact .inl (numeral c member)
  | point numeral _ numeralToo =>
      rcases List.mem_append.mp member with before | after
      · exact .inl (numeral c before)
      · rcases List.mem_cons.mp after with rfl | after
        · exact .inr rfl
        · exact .inl (numeralToo c after)

theorem Spells.ne_nil {value : ℚ} {chars : List Char} (spells : Spells value chars) :
    chars ≠ [] := by
  cases spells with
  | whole _ nonempty => exact nonempty
  | point => simp

theorem spells_positional (d : Decimal) : Spells d.value (d.positional "").toList := by
  have digits := isNumeral_toDigits d.digits
  have number : Nat.ofDigitChars 10 (Nat.toDigits 10 d.digits) 0 = d.digits :=
    Nat.ofDigitChars_ten_toDigits
  have some := Nat.length_toDigits_pos (b := 10) (n := d.digits)
  rw [positional, toList_repr]
  split
  · next whole =>
      simp only [zeros, String.append_empty, String.toList_append, String.toList_ofList]
      refine .whole (digits.append (isNumeral_zeros _)) (by simp [Nat.toDigits_ne_nil]) ?_
      have exponent : (d.exponent.toNat : Int) = d.exponent := Int.toNat_of_nonneg whole
      rw [Nat.ofDigitChars_append, number, Nat.ofDigitChars_replicate_zero, value, ← exponent,
        zpow_natCast]
      push_cast
      rw [Int.toNat_natCast, mul_comm]
  · next negative =>
      have value_mul : d.value * 10 ^ (-d.exponent).toNat = d.digits := by
        rw [value, mul_assoc, pow_toNat, Int.toNat_of_nonpos (by omega), pow_zero, mul_one]
      split
      · next inside =>
          have point : ".".toList = ['.'] := rfl
          simp only [String.toList_append, String.toList_ofList, point, List.append_assoc,
            List.singleton_append]
          refine .point (fun c member => digits c (List.mem_of_mem_take member)) ?_
            (fun c member => digits c (List.mem_of_mem_drop member)) ?_
          · rw [ne_eq, List.take_eq_nil_iff]
            simp only [Nat.toDigits_ne_nil, or_false]
            omega
          · rw [List.take_append_drop, number, List.length_drop, ← value_mul]
            congr 2
            omega
      · next outside =>
          have start : "0.".toList = List.replicate 1 '0' ++ ['.'] := rfl
          simp only [zeros, String.toList_append, String.toList_ofList, start, List.append_assoc,
            List.singleton_append]
          refine .point (isNumeral_zeros 1) (by decide) ((isNumeral_zeros _).append digits) ?_
          rw [List.append_eq, Nat.ofDigitChars_append, Nat.ofDigitChars_append,
            Nat.ofDigitChars_replicate_zero, Nat.ofDigitChars_replicate_zero, Nat.mul_zero, number,
            List.length_append, List.length_replicate, ← value_mul]
          congr 2
          omega

end ScopedValues.Decimal
