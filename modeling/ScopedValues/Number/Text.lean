import ScopedValues.Number.Shortest

/-!
Contract: the two written forms of a number.

Owns the plain form, which never has an exponent, and the inspected form, which
marks whole numbers with a decimal place and writes very large and very small
numbers with an exponent.

Does not own the choice of digits.
-/

set_option autoImplicit false

namespace ScopedValues

namespace Decimal

def zeros (count : Nat) : String :=
  String.ofList (List.replicate count '0')

/-- Digits with a point where the exponent asks for one, and `wholeMark` after a whole number. -/
def positional (wholeMark : String) (d : Decimal) : String :=
  let digits := (Nat.repr d.digits).toList
  let point := (digits.length : Int) + d.exponent
  if 0 ≤ d.exponent then
    String.ofList digits ++ zeros d.exponent.toNat ++ wholeMark
  else if 0 < point then
    String.ofList (digits.take point.toNat) ++ "." ++ String.ofList (digits.drop point.toNat)
  else
    "0." ++ zeros (-point).toNat ++ String.ofList digits

/-- One digit, a point if more follow, and the exponent of ten. -/
def scientific (d : Decimal) : String :=
  let digits := (Nat.repr d.digits).toList
  let leading := d.exponent + ((digits.length : Int) - 1)
  let fraction := digits.drop 1
  String.ofList (digits.take 1) ++
    (if fraction.isEmpty then "" else "." ++ String.ofList fraction) ++
    "e" ++ toString leading

/-- Whether the leading digit stands between the places `10 ^ -4` and `10 ^ 15`. -/
def isModerate (d : Decimal) : Bool :=
  let leading := d.exponent + (((Nat.repr d.digits).toList.length : Int) - 1)
  decide (-4 ≤ leading) && decide (leading ≤ 15)

end Decimal

namespace Double

/-- Writes a number, given how to write zero and how to write a nonzero absolute value. -/
def textWith (zeroText : String) (absolute : Decimal → String) (x : Double) : String :=
  if x.isNaN then "NaN"
  else
    (if x.negative then "-" else "") ++
      (if !x.isFinite then "inf"
       else if x.isZero then zeroText
       else absolute x.shortest)

/-- The plain form. -/
def text (x : Double) : String :=
  x.textWith "0" (Decimal.positional "")

/-- The inspected form. -/
def inspect (x : Double) : String :=
  x.textWith "0.0" fun d =>
    if d.isModerate then d.positional ".0" else d.scientific

end Double

end ScopedValues
