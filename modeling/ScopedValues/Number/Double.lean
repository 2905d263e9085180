/-!
Contract: the numbers that values hold, as double-precision bit patterns.

Owns the fields of a pattern, its exact magnitude, the comparison of numbers,
the whole part of a number, and the double nearest to a natural number.

Does not own decimal text.
-/

set_option autoImplicit false

namespace ScopedValues

/-- A double, identified with its bit pattern. -/
structure Double where
  bits : UInt64
deriving DecidableEq, Repr, Inhabited

namespace Double

/-! ## Fields -/

def negative (x : Double) : Bool :=
  decide (Nat.pow 2 63 ≤ x.bits.toNat)

def exponentField (x : Double) : Nat :=
  x.bits.toNat / Nat.pow 2 52 % Nat.pow 2 11

def fractionField (x : Double) : Nat :=
  x.bits.toNat % Nat.pow 2 52

def isFinite (x : Double) : Bool :=
  x.exponentField != 2047

def isNaN (x : Double) : Bool :=
  x.exponentField == 2047 && x.fractionField != 0

/-- Both zeros. -/
def isZero (x : Double) : Bool :=
  x.exponentField == 0 && x.fractionField == 0

/-- The significand of a finite double, with its leading bit if it has one. -/
def significand (x : Double) : Nat :=
  if x.exponentField = 0 then x.fractionField else Nat.pow 2 52 + x.fractionField

/-- A finite double is `significand * 2 ^ scale` in units of `2 ^ -1074`, up to sign. -/
def scale (x : Double) : Nat :=
  x.exponentField - 1

/-- The absolute value of a finite double, in units of `2 ^ -1074`. -/
def magnitude (x : Double) : Nat :=
  x.significand * Nat.pow 2 x.scale

/-! ## Constants -/

def zero : Double := ⟨0x0000000000000000⟩

def negativeOne : Double := ⟨0xbff0000000000000⟩

def infinity : Double := ⟨0x7ff0000000000000⟩

/-! ## Comparison -/

/-- Numerical equality: a NaN equals nothing, and the two zeros are equal. -/
def equal (x y : Double) : Bool :=
  !x.isNaN && !y.isNaN && (x == y || (x.isZero && y.isZero))

/-! ## Whole parts -/

/-- The absolute value of a finite double, rounded toward zero. -/
def wholePart (x : Double) : Nat :=
  x.magnitude / Nat.pow 2 1074

/-- A finite double rounded toward zero. -/
def truncated (x : Double) : Int :=
  if x.negative then -(x.wholePart : Int) else x.wholePart

/-- The largest position that a machine word can name. -/
def wordMax : Nat := 0xffffffffffffffff

/-- The whole part as a machine word; larger ones stop at the largest word. -/
def wholeWord (x : Double) : Nat :=
  min x.wholePart wordMax

/-! ## Rounding -/

/-- `n / 2 ^ shift`, rounded to the nearest natural number, a half going to the even one. -/
def roundShift (n shift : Nat) : Nat :=
  let unit := Nat.pow 2 shift
  let quotient := n / unit
  let doubled := 2 * (n % unit)
  if unit < doubled || (doubled == unit && quotient % 2 == 1) then
    quotient + 1
  else
    quotient

/--
The double nearest to `n`, a half going to the even significand. A significand
that rounds up to `2 ^ 53` carries into the exponent field, as it should.
-/
def ofNat (n : Nat) : Double :=
  if n = 0 then zero
  else
    let top := n.log2
    let significand :=
      if top ≤ 52 then n * Nat.pow 2 (52 - top) else roundShift n (top - 52)
    ⟨UInt64.ofNat (min ((1022 + top) * Nat.pow 2 52 + significand) infinity.bits.toNat)⟩

end Double

end ScopedValues
