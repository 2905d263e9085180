import ScopedValues.Store.Copy

/-!
Contract: lists.

Owns making lists, reading an element, and the ways of changing a list.

Does not own which position an index names.
-/

set_option autoImplicit false

namespace ScopedValues

/-- A refusal stops an operation on storage. -/
def Fault.ofRefusal {α : Type} : Except Refusal α → Except Fault α
  | .ok value => .ok value
  | .error reason => .error (.refused reason)

namespace Store

def newList (store : Store) (items : List Value) : Addr × Store :=
  store.allocate (.list items)

/-- A list with deep copies of the elements of a tuple; nothing else becomes a list. -/
def listOfTuple (store : Store) : Value → Except Fault (Addr × Store)
  | .tuple items => do
      let (fresh, store) ← store.deepCopyAll items
      .ok (store.newList fresh)
  | other => .error (.refused (.invalidConversion other.tag))

/-- A copy of the element at `index`. -/
def getItem (store : Store) (a : Addr) (index : Index) : Except Fault (Value × Store) := do
  let items ← store.readList a
  let position ← Fault.ofRefusal (index.resolve items.length)
  store.copy (items.getD position Value.none)

/-- The place at `index`, for a change in place: its position and its value. -/
def item (store : Store) (a : Addr) (index : Index) : Except Fault (Nat × Value) := do
  let items ← store.readList a
  let position ← Fault.ofRefusal (index.resolve items.length)
  .ok (position, items.getD position Value.none)

/-- Puts the changed value of a place back. -/
def setPosition (store : Store) (a : Addr) (position : Nat) (value : Value) : Store :=
  store.setItems a ((store.items a).set position value)

/-- Replaces the element at `index`; answers the old one. -/
def setItem (store : Store) (a : Addr) (index : Index) (value : Value) :
    Except Fault (Value × Store) := do
  let (position, old) ← store.item a index
  .ok (old, store.setPosition a position value)

/-- Appends an element. -/
def push (store : Store) (a : Addr) (value : Value) : Except Fault Store := do
  let items ← store.readList a
  .ok (store.setItems a (items ++ [value]))

/-- Removes the element at `index`, or the last one; answers it. -/
def pop (store : Store) (a : Addr) (index : Option Index) : Except Fault (Value × Store) := do
  let items ← store.readList a
  let position ← Fault.ofRefusal (Index.resolveRemoval index items.length)
  .ok (items.getD position Value.none, store.setItems a (items.eraseIdx position))

end Store

end ScopedValues
