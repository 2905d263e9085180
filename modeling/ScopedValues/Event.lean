import ScopedValues.Value

/-!
Contract: what can be recorded about the work on scopes and lists.

Owns the events with their level, message and fields.

Does not own when they occur.
-/

set_option autoImplicit false

namespace ScopedValues

inductive Event where
  | baseCreated
  | defaultGlobalCreated
  /-- A scope was made inside a chain of this many scopes. -/
  | childEntered (depth : Nat)
  /-- An assignment found no binding of the key and declared one. -/
  | assignmentDeclared (key : String)
  | conversionRejected (found : Tag)
deriving DecidableEq, Repr

namespace Event

inductive Level where
  | debug
  | trace
deriving DecidableEq, Repr

def Level.name : Level → String
  | .debug => "DEBUG"
  | .trace => "TRACE"

def level : Event → Level
  | .baseCreated => .debug
  | .defaultGlobalCreated => .debug
  | .childEntered _ => .trace
  | .assignmentDeclared _ => .trace
  | .conversionRejected _ => .debug

def message : Event → String
  | .baseCreated => "creating base scope"
  | .defaultGlobalCreated => "creating default global scope"
  | .childEntered _ => "entering child scope"
  | .assignmentDeclared _ => "assign fell through to local declaration"
  | .conversionRejected _ => "rejected list conversion"

/-- The details of an event, as text. -/
def fields : Event → List (String × String)
  | .baseCreated => []
  | .defaultGlobalCreated => []
  | .childEntered depth => [("depth", Nat.repr depth)]
  | .assignmentDeclared key => [("key", key)]
  | .conversionRejected found => [("found", found.name)]

end Event

end ScopedValues
