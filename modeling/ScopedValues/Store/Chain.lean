import ScopedValues.Store.Basic

/-!
Contract: the scopes that enclose a scope.

Owns the chain of a scope, its depth, the search for the scope that binds a key,
and descent.

Does not own reading or changing a binding. A parent is always older than its
children, so a chain is never longer than the address it starts from allows.
-/

set_option autoImplicit false

namespace ScopedValues.Store

/-- The scope at `a` and the scopes around it, outwards; `fuel` bounds their number. -/
def chainWithin (store : Store) : Nat → Addr → List Addr
  | 0, _ => []
  | fuel + 1, a =>
      a :: match (store.scope a).parent with
        | some parent => store.chainWithin fuel parent
        | none => []

/-- The scope at `a` and the scopes around it, outwards. -/
def chain (store : Store) (a : Addr) : List Addr :=
  store.chainWithin (a + 1) a

def parent? (store : Store) (a : Addr) : Except Fault (Option Addr) :=
  return (← store.readScope a).parent

/-- Looks at every scope of a chain. -/
def walk (store : Store) : List Addr → Except Fault Unit
  | [] => .ok ()
  | a :: outer => do
      store.free a
      store.walk outer

/-- The chain of a scope, once every scope of it has been looked at. -/
def enclosing (store : Store) (a : Addr) : Except Fault (List Addr) := do
  store.walk (store.chain a)
  .ok (store.chain a)

/-- The number of scopes in the chain. -/
def depth (store : Store) (a : Addr) : Except Fault Nat :=
  return (← store.enclosing a).length

/-- The first scope of a chain that binds `key`; no scope beyond it is looked at. -/
def firstBinding (store : Store) (key : String) : List Addr → Except Fault (Option Addr)
  | [] => .ok none
  | a :: outer => do
      let scope ← store.readScope a
      if scope.bindings.contains key then .ok (some a) else store.firstBinding key outer

/-- The nearest scope that binds `key`. -/
def owner? (store : Store) (a : Addr) (key : String) : Except Fault (Option Addr) :=
  store.firstBinding key (store.chain a)

/-- Whether `ancestor` stands in a chain; no scope beyond it is looked at. -/
def meets (store : Store) (ancestor : Addr) : List Addr → Except Fault Bool
  | [] => .ok false
  | a :: outer => do
      store.free a
      if a = ancestor then .ok true else store.meets ancestor outer

/-- Whether `ancestor` encloses the scope at `a`. No scope encloses itself. -/
def descends (store : Store) (a ancestor : Addr) : Except Fault Bool := do
  store.free a
  store.meets ancestor (store.chain a).tail

end ScopedValues.Store
