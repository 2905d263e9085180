import ScopedValues.Value

/-!
Contract: the reasons for which an operation on values is refused or stuck.

Owns the refusals that a caller can expect, with their wording, and the faults of
storage access.

Does not own the conditions under which they arise.
-/

set_option autoImplicit false

namespace ScopedValues

/-- A refusal: the operation was asked for something that is not there. -/
inductive Refusal where
  /-- A list can only be made from a tuple. -/
  | invalidConversion (found : Tag)
  /-- The index names no position of a list of this length. -/
  | indexOutOfRange (index : Double) (length : Nat)
  /-- There is no first element to remove. -/
  | emptyTuple
deriving DecidableEq, Repr

namespace Refusal

def message : Refusal → String
  | .invalidConversion found =>
      "invalid conversion: cannot build a list from a " ++ found.name ++ " token"
  | .indexOutOfRange index length =>
      "index " ++ index.text ++ " out of range for list of length " ++ Nat.repr length
  | .emptyTuple => "cannot pop front of an empty tuple"

/-- The name of the reason alone. -/
def kind : Refusal → String
  | .invalidConversion _ => "InvalidConversion"
  | .indexOutOfRange _ _ => "IndexOutOfRange"
  | .emptyTuple => "EmptyTuple"

/-- Refusals that a position or an element is missing. -/
def isOutOfRange : Refusal → Bool
  | .invalidConversion _ => false
  | .indexOutOfRange _ _ => true
  | .emptyTuple => true

def inspect : Refusal → String
  | .invalidConversion found => "InvalidConversion \x7b found: " ++ found.inspect ++ " \x7d"
  | .indexOutOfRange index length =>
      "IndexOutOfRange \x7b index: " ++ index.inspect ++ ", len: " ++ Nat.repr length ++ " \x7d"
  | .emptyTuple => "EmptyTuple"

/-- Equality of refusals; the indices compare numerically. -/
def equal : Refusal → Refusal → Bool
  | .invalidConversion x, .invalidConversion y => x == y
  | .indexOutOfRange x m, .indexOutOfRange y n => x.equal y && m == n
  | .emptyTuple, .emptyTuple => true
  | _, _ => false

end Refusal

/-- Why an operation on storage gave no answer. -/
inductive Fault where
  | refused (reason : Refusal)
  /-- The storage is lent out for a change in place and was touched meanwhile. -/
  | conflict
  /-- The value contains itself and the operation would follow it forever. -/
  | endless
deriving DecidableEq, Repr

end ScopedValues
