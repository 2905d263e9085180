import ScopedValues.Store.Basic

/-!
Contract: copies of values.

Owns the plain copy, which shares lists and maps but gives every tuple storage of
its own, and the deep copy, which gives a list or map fresh storage as well. The
contents of fresh storage are plain copies.

Does not own when the language copies. A copy is endless exactly when storage
hands over to itself through tuples.
-/

set_option autoImplicit false

namespace ScopedValues

namespace Value

variable {m : Type → Type} [Monad m]

mutual

/-- Replaces every address that is reached through tuples alone. -/
def renew (fresh : Addr → m Addr) : Value → m Value
  | .scalar x => pure (.scalar x)
  | .tuple items => return .tuple (← renewAll fresh items)
  | .list a => return .list (← fresh a)
  | .map a => return .map (← fresh a)
termination_by structural value => value

def renewAll (fresh : Addr → m Addr) : List Value → m (List Value)
  | [] => pure []
  | item :: rest => return (← renew fresh item) :: (← renewAll fresh rest)
termination_by structural items => items

end

/-- Renews a tuple and keeps every other value as it is. -/
def renewTuple (fresh : Addr → m Addr) : Value → m Value
  | .tuple items => renew fresh (.tuple items)
  | value => pure value

end Value

namespace Payload

variable {m : Type → Type} [Monad m]

/-- Copies the contents of a payload; a scope keeps its parent. -/
def renewTuples (fresh : Addr → m Addr) : Payload → m Payload
  | .list items => return .list (← items.mapM (Value.renewTuple fresh))
  | .scope source => do
      let entries ← source.bindings.entries.mapM fun entry =>
        return (entry.1, ← Value.renewTuple fresh entry.2)
      return .scope { source with bindings := ⟨entries⟩ }

end Payload

/-- Work on storage that may fail, and then changes nothing. -/
abbrev StoreM := StateT Store (Except Fault)

namespace Store

/-- Fresh storage with a copy of the contents of `a`; `fuel` bounds the nesting. -/
def detachWithin : Nat → Addr → StoreM Addr
  | 0, _ => throw .endless
  | fuel + 1, a => do
      let payload ← (← get).readPayload a
      let contents ← payload.renewTuples (detachWithin fuel)
      modifyGet (·.allocate contents)

/-- Fresh storage with a copy of the contents of `a`. -/
def detach (store : Store) (a : Addr) : Except Fault (Addr × Store) :=
  detachWithin store.size a store

/-- The plain copy. -/
def copy (store : Store) (value : Value) : Except Fault (Value × Store) :=
  value.renewTuple (detachWithin store.size) store

/-- The deep copy. -/
def deepCopy (store : Store) (value : Value) : Except Fault (Value × Store) :=
  value.renew (detachWithin store.size) store

/-- Deep copies of several values, in order. -/
def deepCopyAll (store : Store) (values : List Value) : Except Fault (List Value × Store) :=
  Value.renewAll (detachWithin store.size) values store

end Store

end ScopedValues
