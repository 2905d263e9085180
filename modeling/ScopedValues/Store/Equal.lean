import ScopedValues.Store.Basic

/-!
Contract: equality of values.

Owns the comparison of values element by element, in which two addresses of one
payload are equal without a look at the payload, and maps are compared by the
identity of their parents and without regard to declaration order.

Does not own comparison of identities alone.
-/

set_option autoImplicit false

namespace ScopedValues

namespace Value

mutual

/-- Compares values, with `agree` comparing what two addresses of one kind hold. -/
def equalBy (agree : Addr → Addr → Except Fault Bool) : Value → Value → Except Fault Bool
  | .scalar x, .scalar y => .ok (x.equal y)
  | .tuple xs, .tuple ys =>
      if xs.length = ys.length then equalAllBy agree xs ys else .ok false
  | .list a, .list b => agree a b
  | .map a, .map b => agree a b
  | _, _ => .ok false
termination_by structural left => left

/-- Compares elements in order and stops at the first that differ. -/
def equalAllBy (agree : Addr → Addr → Except Fault Bool) :
    List Value → List Value → Except Fault Bool
  | x :: xs, y :: ys => do
      if ← equalBy agree x y then equalAllBy agree xs ys else .ok false
  | _, _ => .ok true
termination_by structural left => left

end

end Value

namespace Table

/-- Whether every one of `entries` has an equal entry under its key in `other`. -/
def includesBy (agree : Addr → Addr → Except Fault Bool) (other : Table Value) :
    List (String × Value) → Except Fault Bool
  | [] => .ok true
  | (key, value) :: rest =>
      match other.get? key with
      | none => .ok false
      | some found => do
          if ← value.equalBy agree found then includesBy agree other rest else .ok false

end Table

namespace Payload

/-- Compares the contents of two payloads. -/
def equalBy (agree : Addr → Addr → Except Fault Bool) : Payload → Payload → Except Fault Bool
  | .list xs, .list ys =>
      if xs.length = ys.length then Value.equalAllBy agree xs ys else .ok false
  | .scope x, .scope y =>
      if x.parent = y.parent ∧ x.bindings.size = y.bindings.size then
        Table.includesBy agree y.bindings x.bindings.entries
      else .ok false
  | _, _ => .ok false

end Payload

namespace Store

/-- Whether two addresses hold equal contents; `fuel` bounds the nesting. -/
def agreeWithin (store : Store) : Nat → Addr → Addr → Except Fault Bool
  | 0, _, _ => .error .endless
  | fuel + 1, a, b =>
      if a = b then .ok true
      else do
        let left ← store.readPayload a
        let right ← store.readPayload b
        left.equalBy (store.agreeWithin fuel) right

/--
Equality of values. A comparison that comes to an end never meets one pair of
addresses inside itself, so their number bounds its nesting.
-/
def equal (store : Store) (x y : Value) : Except Fault Bool :=
  x.equalBy (store.agreeWithin (store.size * store.size + 1)) y

end Store

end ScopedValues
