import ScopedValues.Index
import ScopedValues.Table

/-!
Contract: the storage that lists and maps share.

Owns scopes, the payloads behind addresses, reading and replacing a payload, and
lending one out for a change in place.

Does not own what lists and scopes do with their payloads. Storage only grows: an
address keeps its payload's kind, and new payloads come after all others.
-/

set_option autoImplicit false

namespace ScopedValues

/-- The local bindings of a map and the scope that encloses it. -/
structure Scope where
  bindings : Table Value
  parent : Option Addr
deriving Repr, Inhabited

inductive Payload where
  | list (items : List Value)
  | scope (scope : Scope)
deriving Repr

instance : Inhabited Payload := ⟨.list []⟩

structure Store where
  /-- The payload of each address. -/
  payloads : Array Payload := #[]
  /-- The addresses whose payloads are being changed in place, innermost first. -/
  lent : List Addr := []
deriving Repr, Inhabited

namespace Store

def size (store : Store) : Nat :=
  store.payloads.size

/-- The elements of the list at an address; an address without a list has none. -/
def items (store : Store) (a : Addr) : List Value :=
  match store.payloads[a]? with
  | some (.list items) => items
  | _ => []

/-- The scope at an address; an address without a scope reads as an empty root. -/
def scope (store : Store) (a : Addr) : Scope :=
  match store.payloads[a]? with
  | some (.scope scope) => scope
  | _ => ⟨Table.empty, none⟩

/-! ## Access -/

/-- Storage that is lent out can be neither read nor written. -/
def free (store : Store) (a : Addr) : Except Fault Unit :=
  if store.lent.contains a then .error .conflict else .ok ()

def readList (store : Store) (a : Addr) : Except Fault (List Value) := do
  store.free a
  .ok (store.items a)

def readScope (store : Store) (a : Addr) : Except Fault Scope := do
  store.free a
  .ok (store.scope a)

def readPayload (store : Store) (a : Addr) : Except Fault Payload := do
  store.free a
  .ok (store.payloads[a]?.getD default)

/-! ## Change -/

/-- Adds a payload and gives its address. -/
def allocate (store : Store) (payload : Payload) : Addr × Store :=
  (store.size, { store with payloads := store.payloads.push payload })

def setItems (store : Store) (a : Addr) (items : List Value) : Store :=
  { store with payloads := store.payloads.setIfInBounds a (.list items) }

/-- Replaces the local bindings of a scope; its parent never changes. -/
def setBindings (store : Store) (a : Addr) (bindings : Table Value) : Store :=
  { store with
    payloads := store.payloads.setIfInBounds a (.scope ⟨bindings, (store.scope a).parent⟩) }

def lend (store : Store) (a : Addr) : Store :=
  { store with lent := a :: store.lent }

/-- Takes back what was lent last. -/
def regain (store : Store) : Store :=
  { store with lent := store.lent.tail }

end Store

end ScopedValues
