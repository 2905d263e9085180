import ScopedValues.Store.Basic
import ScopedValues.Tree

/-!
Contract: the tree of a value.

Owns following addresses through elements and bindings, and the plain form of a
value, which is the plain form of its tree.

Does not own the forms of trees. Parents are not followed. A value has no tree
exactly when it contains itself.
-/

set_option autoImplicit false

namespace ScopedValues

namespace Value

variable {ν : Type}

mutual

/-- The tree of a value, with `follow` giving the tree behind an address. -/
def unfoldBy (follow : Addr → Except Fault (Tree ν)) : Value → Except Fault (Tree ν)
  | .scalar x => .ok (.scalar x)
  | .tuple items => return .tuple (← unfoldAllBy follow items)
  | .list a => follow a
  | .map a => follow a
termination_by structural value => value

def unfoldAllBy (follow : Addr → Except Fault (Tree ν)) :
    List Value → Except Fault (List (Tree ν))
  | [] => .ok []
  | item :: rest => return (← unfoldBy follow item) :: (← unfoldAllBy follow rest)
termination_by structural items => items

end

def unfoldEntriesBy (follow : Addr → Except Fault (Tree ν)) :
    List (String × Value) → Except Fault (List (String × Tree ν))
  | [] => .ok []
  | (key, value) :: rest =>
      return (key, ← value.unfoldBy follow) :: (← unfoldEntriesBy follow rest)

end Value

namespace Store

variable {ν : Type}

/-- What to note about a map: a function of its address and its scope. -/
abbrev Note (ν : Type) := Addr → Scope → Except Fault ν

/-- The tree behind an address; `fuel` bounds the nesting. -/
def followWithin (store : Store) (note : Note ν) : Nat → Addr → Except Fault (Tree ν)
  | 0, _ => .error .endless
  | fuel + 1, a => do
      match ← store.readPayload a with
      | .list items => return .list (← Value.unfoldAllBy (store.followWithin note fuel) items)
      | .scope scope =>
          let noted ← note a scope
          return .map noted
            (← Value.unfoldEntriesBy (store.followWithin note fuel) scope.bindings.entries)

/-- The tree of a value; one that comes to an end meets no address inside itself. -/
def unfold (store : Store) (note : Note ν) (value : Value) : Except Fault (Tree ν) :=
  value.unfoldBy (store.followWithin note (store.size + 1))

/-- The tree of a value with the parent of every map. -/
def tree (store : Store) (value : Value) : Except Fault (Tree (Option Addr)) :=
  store.unfold (fun _ scope => .ok scope.parent) value

/-- The plain form of a value. -/
def text (store : Store) (value : Value) : Except Fault String :=
  return (← store.tree value).text

/-- The inspected form of a value, if it has one. -/
def inspect? (store : Store) (value : Value) : Except Fault (Option String) :=
  return (← store.unfold (fun _ scope => .ok scope.parent.isSome) value).inspect?

end Store

end ScopedValues
