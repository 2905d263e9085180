import ScopedValues.Error

/-!
Contract: which position of a list an index names.

Owns the two ways of giving an index, resolution from the front, and resolution
that counts a negative index from the end.

Does not own the lists.
-/

set_option autoImplicit false

namespace ScopedValues

inductive Index where
  | whole (position : Nat)
  /-- A number, rounded toward zero. -/
  | number (x : Double)
deriving DecidableEq, Repr

namespace Index

/-- Equality of indices given in the same way; numbers compare numerically. -/
def equal : Index → Index → Bool
  | .whole m, .whole n => m == n
  | .number x, .number y => x.equal y
  | _, _ => false

def inspect : Index → String
  | .whole position => "Int(" ++ Nat.repr position ++ ")"
  | .number x => "Float(" ++ x.inspect ++ ")"

/-- The index as a number, as refusals report it. -/
def reported : Index → Double
  | .whole position => Double.ofNat position
  | .number x => x

def outOfRange (index : Index) (length : Nat) : Refusal :=
  .indexOutOfRange index.reported length

/-- The position in a list of `length` elements, counted from the front. -/
def resolve (index : Index) (length : Nat) : Except Refusal Nat :=
  match index with
  | .whole position =>
      if position < length then .ok position else .error (index.outOfRange length)
  | .number x =>
      if x.isFinite ∧ 0 ≤ x.truncated ∧ x.wholeWord < length then .ok x.wholeWord
      else .error (index.outOfRange length)

/-- Like `resolve`, but a number that rounds below zero counts back from the end. -/
def resolveFromEnd (index : Index) (length : Nat) : Except Refusal Nat :=
  match index with
  | .whole _ => index.resolve length
  | .number x =>
      if x.isFinite ∧ x.truncated < 0 then
        if x.wholeWord ≤ length then .ok (length - x.wholeWord)
        else .error (index.outOfRange length)
      else index.resolve length

/-- The position that removal takes: the last one when no index is given. -/
def resolveRemoval (index : Option Index) (length : Nat) : Except Refusal Nat :=
  match index with
  | some index => index.resolveFromEnd length
  | none =>
      if 0 < length then .ok (length - 1)
      else .error (.indexOutOfRange Double.negativeOne length)

end Index

end ScopedValues
