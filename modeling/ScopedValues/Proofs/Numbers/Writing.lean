import ScopedValues.Proofs.Numbers.Intervals

/-!
Contract: what the plain form of a number tells about it.

Owns the characters of a written number.

Main statement: two numbers are written alike only if they are the same double or both
NaNs.
-/

set_option autoImplicit false

namespace ScopedValues.Double

variable {x y : Double}

/-- The plain form of the absolute value of a number. -/
def absoluteText (x : Double) : String :=
  if !x.isFinite then "inf" else if x.isZero then "0" else x.shortest.positional ""

theorem text_of_isNaN (nan : x.isNaN = true) : x.text = "NaN" := by
  rw [text, textWith, if_pos nan]

theorem text_of_not_isNaN (proper : x.isNaN = false) :
    x.text = (if x.negative then "-" else "") ++ x.absoluteText := by
  rw [text, textWith, if_neg (by simp [proper])]
  rfl

/-! ## Absolute values -/

theorem fields_of_infinite (proper : x.isNaN = false) (infinite : x.isFinite = false) :
    x.exponentField = 2047 ∧ x.fractionField = 0 := by
  simp_all [isNaN, isFinite]

theorem fields_of_isZero (zero : x.isZero = true) : x.exponentField = 0 ∧ x.fractionField = 0 := by
  simpa [isZero] using zero

theorem absoluteText_of_infinite (infinite : x.isFinite = false) : x.absoluteText = "inf" := by
  rw [absoluteText, infinite]
  rfl

/-- A finite number is written in digits, as a decimal that rounds to it. -/
theorem exists_spells (finite : x.isFinite = true) :
    ∃ value, Decimal.Spells value x.absoluteText.toList ∧
      (x.isZero = true ∧ value = 0 ∨ x.isZero = false ∧ Rounds value x) := by
  cases zero : x.isZero with
  | true =>
      have written : x.absoluteText = String.ofList (List.replicate 1 '0') := by
        rw [absoluteText, finite, zero]
        rfl
      have number : (Nat.ofDigitChars 10 (List.replicate 1 '0') 0 : ℚ) = 0 := by
        rw [Nat.ofDigitChars_replicate_zero]
        norm_num
      rw [written, String.toList_ofList]
      exact ⟨0, .whole (Decimal.isNumeral_zeros 1) (by decide) number, .inl ⟨rfl, rfl⟩⟩
  | false =>
      have written : x.absoluteText = x.shortest.positional "" := by
        rw [absoluteText, finite, zero]
        rfl
      rw [written]
      exact ⟨x.shortest.value, Decimal.spells_positional _, .inr ⟨rfl, rounds_shortest zero⟩⟩

theorem mem_absoluteText (x : Double) :
    ∀ c ∈ x.absoluteText.toList, c.isDigit = true ∨ c ∈ ['.', 'i', 'n', 'f'] := by
  intro c member
  cases finite : x.isFinite with
  | false =>
      rw [absoluteText_of_infinite finite] at member
      have chars : "inf".toList = ['i', 'n', 'f'] := rfl
      rw [chars] at member
      exact .inr (List.mem_cons_of_mem _ member)
  | true =>
      obtain ⟨value, spells, _⟩ := exists_spells finite
      rcases spells.mem c member with digit | rfl
      · exact .inl digit
      · exact .inr List.mem_cons_self

theorem absoluteText_ne_nil (x : Double) : x.absoluteText.toList ≠ [] := by
  cases finite : x.isFinite with
  | false =>
      rw [absoluteText_of_infinite finite]
      decide
  | true =>
      obtain ⟨value, spells, _⟩ := exists_spells finite
      exact spells.ne_nil

theorem absoluteText_ne_infinite (finite : x.isFinite = true) : x.absoluteText ≠ "inf" := by
  intro same
  obtain ⟨value, spells, _⟩ := exists_spells finite
  rw [same] at spells
  exact absurd (spells.mem 'i' (by decide)) (by decide)

theorem fields_of_absoluteText (proper : x.isNaN = false) (properToo : y.isNaN = false)
    (same : x.absoluteText = y.absoluteText) :
    x.exponentField = y.exponentField ∧ x.fractionField = y.fractionField := by
  cases finite : x.isFinite with
  | false =>
      cases finiteToo : y.isFinite with
      | false =>
          have left := fields_of_infinite proper finite
          have right := fields_of_infinite properToo finiteToo
          exact ⟨left.1.trans right.1.symm, left.2.trans right.2.symm⟩
      | true =>
          rw [absoluteText_of_infinite finite] at same
          exact absurd same.symm (absoluteText_ne_infinite finiteToo)
  | true =>
      cases finiteToo : y.isFinite with
      | false =>
          rw [absoluteText_of_infinite finiteToo] at same
          exact absurd same (absoluteText_ne_infinite finite)
      | true =>
          obtain ⟨value, spells, kind⟩ := exists_spells finite
          obtain ⟨other, spellsToo, kindToo⟩ := exists_spells finiteToo
          rw [← same] at spellsToo
          obtain rfl := spells.reading_eq.symm.trans spellsToo.reading_eq
          rcases kind with ⟨zero, isZero⟩ | ⟨nonzero, rounds⟩
          · rcases kindToo with ⟨zeroToo, _⟩ | ⟨nonzeroToo, roundsToo⟩
            · have left := fields_of_isZero zero
              have right := fields_of_isZero zeroToo
              exact ⟨left.1.trans right.1.symm, left.2.trans right.2.symm⟩
            · exact absurd isZero (roundsToo.pos nonzeroToo).ne'
          · rcases kindToo with ⟨_, isZero⟩ | ⟨_, roundsToo⟩
            · exact absurd isZero (rounds.pos nonzero).ne'
            · obtain ⟨scales, significands⟩ := rounds.unique roundsToo
              exact fields_eq scales significands

/-! ## Numbers with their signs -/

theorem minus_not_mem_absoluteText (x : Double) : '-' ∉ x.absoluteText.toList := fun member =>
  absurd (x.mem_absoluteText '-' member) (by decide)

theorem toList_text (proper : x.isNaN = false) :
    x.text.toList = (if x.negative then ['-'] else []) ++ x.absoluteText.toList := by
  rw [text_of_not_isNaN proper, String.toList_append]
  split <;> rfl

/-- A number is written with digits, a point, a sign, and the letters of two words. -/
theorem mem_text (x : Double) :
    ∀ c ∈ x.text.toList, c.isDigit = true ∨ c ∈ ['-', '.', 'i', 'n', 'f', 'N', 'a'] := by
  intro c member
  cases nan : x.isNaN with
  | true =>
      rw [text_of_isNaN nan] at member
      have chars : "NaN".toList = ['N', 'a', 'N'] := rfl
      rw [chars] at member
      right
      simp only [List.mem_cons] at member ⊢
      tauto
  | false =>
      rw [toList_text nan, List.mem_append] at member
      rcases member with sign | digits
      · split at sign
        · exact .inr (List.mem_append_left _ sign)
        · cases sign
      · rcases x.mem_absoluteText c digits with digit | other
        · exact .inl digit
        · exact .inr (List.mem_cons_of_mem _ (List.mem_append_left ['N', 'a'] other))

theorem toList_text_ne_nil (x : Double) : x.text.toList ≠ [] := by
  cases nan : x.isNaN with
  | true =>
      rw [text_of_isNaN nan]
      decide
  | false =>
      rw [toList_text nan, ne_eq, List.append_eq_nil_iff]
      exact fun both => x.absoluteText_ne_nil both.2

theorem text_ne_nan (proper : x.isNaN = false) : x.text ≠ "NaN" := by
  intro same
  have member : 'a' ∈ x.text.toList := by
    rw [same]
    decide
  rw [toList_text proper, List.mem_append] at member
  rcases member with sign | digits
  · split at sign <;> simp at sign
  · exact absurd (x.mem_absoluteText 'a' digits) (by decide)

/-- Numbers are written alike exactly if they are the same or both NaNs. -/
theorem text_eq_iff (x y : Double) :
    x.text = y.text ↔ x = y ∨ x.isNaN = true ∧ y.isNaN = true := by
  constructor
  · intro same
    cases nan : x.isNaN with
    | true =>
        cases nanToo : y.isNaN with
        | true => exact .inr ⟨rfl, rfl⟩
        | false =>
            rw [text_of_isNaN nan] at same
            exact absurd same.symm (text_ne_nan nanToo)
    | false =>
        cases nanToo : y.isNaN with
        | true =>
            rw [text_of_isNaN nanToo] at same
            exact absurd same (text_ne_nan nan)
        | false =>
            have chars := congrArg String.toList same
            rw [toList_text nan, toList_text nanToo] at chars
            have left := x.minus_not_mem_absoluteText
            have right := y.minus_not_mem_absoluteText
            have signs : x.negative = y.negative ∧ x.absoluteText = y.absoluteText := by
              cases negative : x.negative <;> cases negativeToo : y.negative <;>
                simp only [negative, negativeToo, Bool.false_eq_true, if_true, if_false,
                  List.nil_append, List.cons_append, List.cons.injEq, true_and] at chars
              · exact ⟨rfl, String.toList_inj.mp chars⟩
              · exact absurd (chars ▸ List.mem_cons_self) left
              · exact absurd (chars ▸ List.mem_cons_self) right
              · exact ⟨rfl, String.toList_inj.mp chars⟩
            obtain ⟨exponents, fractions⟩ := fields_of_absoluteText nan nanToo signs.2
            exact .inl (eq_of_fields signs.1 exponents fractions)
  · rintro (rfl | ⟨nan, nanToo⟩)
    · rfl
    · rw [text_of_isNaN nan, text_of_isNaN nanToo]

end ScopedValues.Double
