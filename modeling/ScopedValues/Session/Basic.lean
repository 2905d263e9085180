import ScopedValues.Context
import ScopedValues.Cursor
import ScopedValues.Store.Equal
import ScopedValues.Store.Unfold

/-!
Contract: the state of a session and what its steps answer.

Owns variables and cursors by name, the failures of a step, answers, and the
rendering of a value into an answer.

Does not own the steps.
-/

set_option autoImplicit false

namespace ScopedValues

structure Session where
  context : Context := {}
  /-- The value of each variable. -/
  named : Table Value := Table.empty
  cursors : Table Cursor := Table.empty
deriving Repr, Inhabited

/-- Why a step has no answer. -/
inductive Failure where
  /-- No variable or cursor has this name. -/
  | unbound (name : String)
  /-- The step needs another kind of value. -/
  | wrongType (found : Tag)
  /-- There is nothing at the end of the path. -/
  | missing
  /-- An element of a tuple cannot be changed where it is. -/
  | readOnly
  | fault (fault : Fault)
deriving DecidableEq, Repr

/-- Work in a session; what was done before a failure stays done. -/
abbrev SessionM := ExceptT Failure (StateM Session)

/-- How two values compare, in either order. -/
structure Comparison where
  equal : Bool
  reversed : Bool
  different : Bool
deriving DecidableEq, Repr

/-- A value as it is shown: its kind and its plain form. -/
structure Shown where
  tag : Tag
  text : String
deriving DecidableEq, Repr

/-- What can be told about one value. -/
structure Profile where
  tag : Tag
  text : String
  truth : Option Bool
  number : Option Double
  string : Option String
  tupleLength : Option Nat
  listLength : Option Nat
  mapLength : Option Nat
  /-- The first element that a new cursor finds. -/
  first : Option Shown
  hasCursor : Bool
  equalsItself : Bool
  equalsCopy : Bool
  equalsDeepCopy : Bool
deriving DecidableEq, Repr

inductive Answer where
  | nothing
  | flag (answer : Bool)
  | count (number : Nat)
  | text (text : String)
  | shown (value : Shown)
  /-- A value in full; the note of a map is the depth of its scope. -/
  | spelled (tree : Tree Nat)
  | profile (profile : Profile)
  | comparison (comparison : Comparison)
  | several (answers : List Answer)
deriving Repr, Inhabited

namespace Answer

def ofOption {α : Type} (answer : α → Answer) : Option α → Answer
  | some x => answer x
  | none => .nothing

/-- The length of a container and whether it is empty. -/
def extent (length : Nat) : Answer :=
  .several [.count length, .flag (length == 0)]

end Answer

/-! ## Rendering -/

namespace Context

def shown (value : Value) : ContextM Shown :=
  return { tag := value.tag, text := ← ask (·.text value) }

/-- The plain form of each value, in order. -/
def shownAll (values : List Value) : ContextM Answer :=
  return .several ((← values.mapM shown).map .shown)

/-- A value in full, with the depth of every map's scope. -/
def spelled (value : Value) : ContextM (Tree Nat) :=
  ask fun store => store.unfold (fun a _ => store.depth a) value

/-- Operators and variable names have no truth value; a map is always true. -/
def truth? (value : Value) : ContextM (Option Bool) :=
  match value with
  | .scalar x => pure x.truth?
  | .tuple items => pure (some (!items.isEmpty))
  | .list a => return some (!(← ask (·.readList a)).isEmpty)
  | .map _ => pure (some true)

def compare (x y : Value) : ContextM Comparison := do
  let equal ← ask (·.equal x y)
  let reversed ← ask (·.equal y x)
  return { equal, reversed, different := !equal }

/-- The first element of a list, or the first key of a map. -/
def first? (value : Value) : ContextM (Option Shown) := do
  match Cursor.over? value with
  | none => return none
  | some cursor =>
      match (← onStore cursor.next).1 with
      | none => return none
      | some element => return some (← shown element)

def profile (value : Value) : ContextM Profile := do
  let text ← ask (·.text value)
  let truth ← truth? value
  let listLength ← match value with
    | .list a => pure (some (← ask (·.readList a)).length)
    | _ => pure none
  let mapLength ← match value with
    | .map a => pure (some (← ask (·.bindings a)).size)
    | _ => pure none
  let first ← first? value
  let equalsItself ← ask (·.equal value value)
  let copy ← onStore (·.copy value)
  let equalsCopy ← ask (·.equal copy value)
  let deepCopy ← onStore (·.deepCopy value)
  let equalsDeepCopy ← ask (·.equal deepCopy value)
  return {
    tag := value.tag
    text
    truth
    number := match value with
      | .scalar x => x.number?
      | _ => none
    string := match value with
      | .scalar x => x.text?
      | _ => none
    tupleLength := match value with
      | .tuple items => some items.length
      | _ => none
    listLength
    mapLength
    first
    hasCursor := (Cursor.over? value).isSome
    equalsItself
    equalsCopy
    equalsDeepCopy }

end Context

/-! ## Names -/

namespace Session

/-- Runs work in the session's context. -/
def inContext {α : Type} (work : ContextM α) : SessionM α := do
  let session ← get
  let (answer, context) := work session.context
  set { session with context }
  match answer with
  | .ok answer => return answer
  | .error fault => throw (.fault fault)

/-- The value of a variable. -/
def valueOf (name : String) : SessionM Value := do
  match (← get).named.get? name with
  | some value => return value
  | none => throw (.unbound name)

/-- The scope that a variable holds. -/
def scopeOf (name : String) : SessionM Addr := do
  match ← valueOf name with
  | .map a => return a
  | other => throw (.wrongType other.tag)

def bind (name : String) (value : Value) : SessionM Unit :=
  modify fun session => { session with named := session.named.insert name value }

def unbind (name : String) : SessionM Unit :=
  modify fun session => { session with named := session.named.erase name }

/-- The names, in order, of the variables that hold the map at an address themselves. -/
def holders (named : Table Value) (a : Addr) : List String :=
  let names := named.entries.filterMap fun entry =>
    match entry.2 with
    | .map b => if a = b then some entry.1 else none
    | _ => none
  names.mergeSort fun earlier later => decide (earlier ≤ later)

end Session

end ScopedValues
