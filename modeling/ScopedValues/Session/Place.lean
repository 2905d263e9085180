import ScopedValues.Session.Basic

/-!
Contract: the places inside a variable that a step can work at.

Owns places, the hops that lead from one to the next, and following a path of
them.

Does not own what is done at the end of a path. A hop that works in place holds its
container until the work is done; a hop that copies leaves nothing behind.
-/

set_option autoImplicit false

namespace ScopedValues

/-- A value where it stands, with the context around it. -/
structure Place where
  value : Value
  /-- Whether the value may be exchanged for another. -/
  writable : Bool
  context : Context

/-- Work at a place; what was done before a failure stays done. -/
abbrev PlaceM := ExceptT Failure (StateM Place)

inductive Hop where
  /-- To an element of a list, in place. -/
  | item (index : Index)
  /-- To the nearest binding of a key, in place; a missing one is declared. -/
  | entry (key : String)
  /-- To an element of a tuple, where it can be read but not exchanged. -/
  | element (position : Nat)
  /-- To a copy of an element of a list. -/
  | get (index : Index)
  /-- To a copy of a local binding. -/
  | find (key : String)
  /-- To a copy of the nearest binding. -/
  | lookup (key : String)
deriving DecidableEq, Repr

namespace Place

/-- Runs work in the context of a place. -/
def inContext {α : Type} (work : ContextM α) : PlaceM α := do
  let place ← get
  let (answer, context) := work place.context
  set { place with context }
  match answer with
  | .ok answer => return answer
  | .error fault => throw (.fault fault)

def here : PlaceM Value :=
  return (← get).value

/-- What the value of the place holds as one of a kind, which it has to be of. -/
def hereAs {α : Type} (kind : Value → Option α) : PlaceM α := do
  let value ← here
  match kind value with
  | some content => return content
  | none => throw (.wrongType value.tag)

/-- Refuses to go on at a place whose value cannot be exchanged. -/
def requireWritable : PlaceM Unit := do
  if !(← get).writable then throw .readOnly

/-- Exchanges the value of the place. -/
def exchange (changed : Value) : PlaceM Unit :=
  modify fun place => { place with value := changed }

/-! ## Hops -/

/-- Work at a place as work on a value in place. -/
def lent {ρ : Type} (work : PlaceM ρ) : Context.InPlace (Except Failure ρ) :=
  fun value context =>
    let (answer, place) := work { value, writable := true, context }
    (answer, place.value, place.context)

/-- Work at another place of the same context; this place keeps its value. -/
def visiting {ρ : Type} (value : Value) (writable : Bool) (work : PlaceM ρ) : PlaceM ρ :=
  fun place =>
    let (answer, visited) := work { value, writable, context := place.context }
    (answer, { place with context := visited.context })

/-- Works at a copy, if there is one. -/
def visitingCopy {ρ : Type} (found : Option Value) (work : PlaceM ρ) : PlaceM ρ :=
  match found with
  | some copy => visiting copy true work
  | none => throw .missing

def answered {ρ : Type} : Except Failure ρ → PlaceM ρ
  | .ok answer => return answer
  | .error failure => throw failure

/-- Does the work one hop further on. -/
def hop {ρ : Type} (hop : Hop) (work : PlaceM ρ) : PlaceM ρ := do
  match hop with
  | .item index => do
      let a ← hereAs Value.asList?
      answered (← inContext (Context.withItem a index (lent work)))
  | .entry key => do
      let a ← hereAs Value.asMap?
      answered (← inContext (Context.withEntry a key (lent work)))
  | .element position => do
      match (← hereAs Value.asTuple?)[position]? with
      | some element => visiting element false work
      | none => throw .missing
  | .get index => do
      let a ← hereAs Value.asList?
      let copy ← inContext (Context.onStore (·.getItem a index))
      visiting copy true work
  | .find key => do
      let a ← hereAs Value.asMap?
      visitingCopy (← inContext (Context.onStore (·.find a key))) work
  | .lookup key => do
      let a ← hereAs Value.asMap?
      visitingCopy (← inContext (Context.onStore (·.lookup a key))) work

/-- Does the work at the end of a path. -/
def follow {ρ : Type} (path : List Hop) (work : PlaceM ρ) : PlaceM ρ :=
  path.foldr hop work

end Place

end ScopedValues
