import ScopedValues.Store.List
import ScopedValues.Store.Scope

/-!
Contract: cursors over lists and maps.

Owns a position in live storage, the step to the next element, and passes over
what is left.

Does not own the storage: a cursor shows what is there when it is asked. At the
end it answers nothing once and starts over.
-/

set_option autoImplicit false

namespace ScopedValues

/-- What a cursor walks over. -/
inductive Walked where
  /-- The elements of a list. -/
  | elements (storage : Addr)
  /-- The local keys of a map, in declaration order. -/
  | keys (storage : Addr)
deriving DecidableEq, Repr

structure Cursor where
  walked : Walked
  position : Nat := 0
deriving DecidableEq, Repr

namespace Cursor

/-- A cursor at the start of a list or map; nothing else has one. -/
def over? : Value → Option Cursor
  | .list a => some { walked := .elements a }
  | .map a => some { walked := .keys a }
  | _ => none

def reset (cursor : Cursor) : Cursor :=
  { cursor with position := 0 }

/-- The number of steps to the end of what is walked over, from its start. -/
def length (cursor : Cursor) (store : Store) : Except Fault Nat :=
  match cursor.walked with
  | .elements a => return (← store.readList a).length
  | .keys a => return (← store.bindings a).size

/-- A copy of what stands at the cursor's position. -/
def current? (cursor : Cursor) (store : Store) : Except Fault (Option Value × Store) :=
  match cursor.walked with
  | .elements a => do
      match (← store.readList a)[cursor.position]? with
      | none => .ok (none, store)
      | some value =>
          let (result, store) ← store.copy value
          .ok (some result, store)
  | .keys a => do
      let table ← store.bindings a
      .ok (table.keys[cursor.position]?.map Value.str, store)

/-- The next element and the cursor behind it, or nothing and the cursor at the start. -/
def next (cursor : Cursor) (store : Store) : Except Fault ((Option Value × Cursor) × Store) := do
  let (found, store) ← cursor.current? store
  match found with
  | some value => .ok ((some value, { cursor with position := cursor.position + 1 }), store)
  | none => .ok ((none, cursor.reset), store)

/-- At most `count` next elements; the end stops a pass early and is then behind the cursor. -/
def take : Nat → Cursor → Store → Except Fault ((List Value × Cursor) × Store)
  | 0, cursor, store => .ok (([], cursor), store)
  | count + 1, cursor, store => do
      let ((found, cursor), store) ← cursor.next store
      match found with
      | none => .ok (([], cursor), store)
      | some value =>
          let ((rest, cursor), store) ← take count cursor store
          .ok ((value :: rest, cursor), store)

/-- All elements up to the end, which leaves the cursor at the start. -/
def pass (cursor : Cursor) (store : Store) :
    Except Fault ((List Value × Cursor) × Store) := do
  let length ← cursor.length store
  take (length + 1) cursor store

end Cursor

end ScopedValues
