import ScopedValues.Store.Chain
import ScopedValues.Store.Copy

/-!
Contract: scopes and their bindings.

Owns making scopes, reading bindings in one scope or along the chain, and the four
ways of writing a binding.

Does not own the scopes that every program finds at its start, nor what is recorded
about an operation.
-/

set_option autoImplicit false

namespace ScopedValues.Store

/-! ## Making scopes -/

/-- An empty scope with no parent. -/
def newRoot (store : Store) : Addr × Store :=
  store.allocate (.scope ⟨Table.empty, none⟩)

/-- An empty scope enclosed by `parent`. -/
def newChild (store : Store) (parent : Addr) : Addr × Store :=
  store.allocate (.scope ⟨Table.empty, some parent⟩)

/-! ## Reading -/

def bindings (store : Store) (a : Addr) : Except Fault (Table Value) :=
  return (← store.readScope a).bindings

/-- A copy of the local binding of `key`. -/
def find (store : Store) (a : Addr) (key : String) : Except Fault (Option Value × Store) := do
  let table ← store.bindings a
  match table.get? key with
  | none => .ok (none, store)
  | some value =>
      let (result, store) ← store.copy value
      .ok (some result, store)

/-- A copy of the first binding of `key` along a chain. -/
def findAlong (store : Store) (key : String) : List Addr → Except Fault (Option Value × Store)
  | [] => .ok (none, store)
  | a :: outer => do
      let (found, after) ← store.find a key
      match found with
      | some value => .ok (some value, after)
      | none => store.findAlong key outer

/-- A copy of the nearest binding of `key`. -/
def lookup (store : Store) (a : Addr) (key : String) : Except Fault (Option Value × Store) :=
  store.findAlong key (store.chain a)

/-! ## Writing -/

/-- Binds `key` in this scope; answers the value that was bound here before. -/
def insert (store : Store) (a : Addr) (key : String) (value : Value) :
    Except Fault (Option Value × Store) := do
  let table ← store.bindings a
  .ok (table.get? key, store.setBindings a (table.insert key value))

/-- Removes the local binding of `key`; answers the value that was bound. -/
def erase (store : Store) (a : Addr) (key : String) : Except Fault (Option Value × Store) := do
  let table ← store.bindings a
  .ok (table.get? key, store.setBindings a (table.erase key))

/-- Overwrites the nearest binding of `key`, or declares it in this scope. -/
def assign (store : Store) (a : Addr) (key : String) (value : Value) : Except Fault Store := do
  let owner := (← store.owner? a key).getD a
  let table ← store.bindings owner
  .ok (store.setBindings owner (table.insert key value))

/--
The place that `key` resolves to, for a change in place: its scope and its value. A
key that no scope binds is declared in this one with the absent value.
-/
def entry (store : Store) (a : Addr) (key : String) : Except Fault (Addr × Value × Store) := do
  let owner := (← store.owner? a key).getD a
  let table := (← store.bindings owner).declare key Value.none
  .ok (owner, (table.get? key).getD Value.none, store.setBindings owner table)

/-- Puts the changed value of a place back. -/
def setEntry (store : Store) (owner : Addr) (key : String) (value : Value) : Store :=
  store.setBindings owner ((store.scope owner).bindings.insert key value)

end ScopedValues.Store
