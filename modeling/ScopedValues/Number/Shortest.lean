import ScopedValues.Number.Double

/-!
Contract: the shortest decimal that reads back as a given double.

Owns decimals, the interval of decimals that round to a double, and the choice
of one decimal in it: the fewest digits, of those the nearest, and of two
equally near the larger.

Does not own how the digits are laid out as text.
-/

set_option autoImplicit false

namespace ScopedValues

/-- The number `digits * 10 ^ exponent`. -/
structure Decimal where
  digits : Nat
  exponent : Int
deriving DecidableEq, Repr

namespace Decimal

/-- Compares `d * 10 ^ exponent * 2 ^ up` with `n * 2 ^ down`, all in natural numbers. -/
def compareScaled (d : Decimal) (up n down : Nat) : Ordering :=
  compare (d.digits * Nat.pow 10 d.exponent.toNat * Nat.pow 2 up)
    (n * Nat.pow 2 down * Nat.pow 10 (-d.exponent).toNat)

/-- The same number with no zero at its end; `fuel` bounds how many are dropped. -/
def dropZeros : Nat → Decimal → Decimal
  | 0, d => d
  | fuel + 1, d =>
      if d.digits % 10 = 0 then dropZeros fuel ⟨d.digits / 10, d.exponent + 1⟩ else d

end Decimal

namespace Double

/-! ## The interval that rounds to a double -/

/-- The lower end of the interval, in quarters of the last place. -/
def lowerEnd (x : Double) : Nat :=
  if x.fractionField = 0 ∧ 1 < x.exponentField then 4 * x.significand - 1
  else 4 * x.significand - 2

/-- The upper end of the interval, in quarters of the last place. -/
def upperEnd (x : Double) : Nat :=
  4 * x.significand + 2

/-- Compares a decimal with `quarters` quarters of the last place of `x`. -/
def compareQuarters (x : Double) (d : Decimal) (quarters : Nat) : Ordering :=
  d.compareScaled (1076 - x.scale) quarters (x.scale - 1076)

/-- Whether `d` rounds to the absolute value of `x`; a tie goes to the even significand. -/
def covers (x : Double) (d : Decimal) : Bool :=
  match x.compareQuarters d x.lowerEnd, x.compareQuarters d x.upperEnd with
  | .gt, .lt => true
  | .eq, _ => x.significand % 2 == 0
  | _, .eq => x.significand % 2 == 0
  | _, _ => false

/-! ## Candidates -/

/-- The largest multiple of `10 ^ exponent` that is at most the absolute value of `x`. -/
def gridBelow (x : Double) (exponent : Int) : Decimal :=
  ⟨x.significand * Nat.pow 2 (x.scale - 1074) * Nat.pow 10 (-exponent).toNat /
      (Nat.pow 2 (1074 - x.scale) * Nat.pow 10 exponent.toNat),
    exponent⟩

/-- Whether the absolute value of `x` is at least the middle between `d` and its upper neighbour. -/
def nearerAbove (x : Double) (d : Decimal) : Bool :=
  let doubledMiddle : Decimal := ⟨2 * d.digits + 1, d.exponent⟩
  x.compareQuarters doubledMiddle (8 * x.significand) != .gt

/-- The better of the two neighbours of `x` on the grid of `10 ^ exponent`, if one rounds to `x`. -/
def onGrid? (x : Double) (exponent : Int) : Option Decimal :=
  let below := x.gridBelow exponent
  let above : Decimal := ⟨below.digits + 1, exponent⟩
  match x.covers below, x.covers above with
  | true, true => some (if x.nearerAbove below then above else below)
  | true, false => some below
  | false, true => some above
  | false, false => none

/-- The exponent of ten of the leading digit, estimated from the leading bit and corrected once. -/
def leadingExponent (x : Double) : Int :=
  let binary : Int := (x.significand.log2 : Int) + x.scale - 1074
  let estimate : Int := Int.fdiv (binary * 30103) 100000
  if x.compareQuarters ⟨1, estimate + 1⟩ (4 * x.significand) != .gt then estimate + 1
  else estimate

/-- The absolute value of a finite double, digit for digit. -/
def exactDecimal (x : Double) : Decimal :=
  ⟨x.magnitude * Nat.pow 5 1074, -1074⟩

/--
The shortest decimal for the absolute value of a finite double other than zero.
Seventeen digits always reach the interval; the exact value stands behind them.
-/
def shortest (x : Double) : Decimal :=
  let found := (List.range 17).findSome? fun (more : Nat) =>
    x.onGrid? (x.leadingExponent - more)
  let chosen := found.getD x.exactDecimal
  chosen.dropZeros 1100

end Double

end ScopedValues
