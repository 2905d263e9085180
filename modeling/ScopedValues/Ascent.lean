import ScopedValues.Store.Chain

/-!
Contract: walks outwards through the scopes that enclose a scope, one scope at a time.

Owns the scope that a walk comes to next, and the step from it to its parent.

Does not own the storage: a walk reads the parent of a scope when it passes the scope,
and whatever has happened to storage since the last step has happened.
-/

set_option autoImplicit false

namespace ScopedValues

structure Ascent where
  /-- The scope that comes next, until the walk is at its end. -/
  scope : Option Addr
deriving DecidableEq, Repr

namespace Ascent

/-- A walk that starts with the scope at `a` itself. -/
def outwards (a : Addr) : Ascent :=
  ⟨some a⟩

/-- The next scope. A walk that comes to one that is lent out ends there. -/
def next (ascent : Ascent) (store : Store) : Except Fault (Option Addr) × Ascent :=
  match ascent.scope with
  | none => (.ok none, ascent)
  | some a =>
      match store.parent? a with
      | .ok parent => (.ok (some a), ⟨parent⟩)
      | .error fault => (.error fault, ⟨none⟩)

end Ascent

end ScopedValues
