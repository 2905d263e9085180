import ScopedValues.Event
import ScopedValues.Store.List
import ScopedValues.Store.Scope

/-!
Contract: the storage of one program together with its default scopes and its
event log.

Owns the base scope and the default global scope, which come into being at their
first use, the operations that record events, and changes in place, during which
the storage changed is lent out.

Does not own variables.
-/

set_option autoImplicit false

namespace ScopedValues

structure Context where
  store : Store := {}
  /-- The root that holds what is built in, once it has been asked for. -/
  base : Option Addr := none
  /-- The default top-level scope, once it has been asked for. -/
  defaultGlobal : Option Addr := none
  /-- Whether events are recorded. -/
  tracing : Bool := false
  /-- The events recorded, oldest first. -/
  log : List Event := []
deriving Repr, Inhabited

/-- Work in a context; what was done before a fault stays done. -/
abbrev ContextM := ExceptT Fault (StateM Context)

namespace Context

/-! ## Work on storage -/

def ask {α : Type} (question : Store → Except Fault α) : ContextM α := do
  liftExcept (question (← get).store)
where
  liftExcept : Except Fault α → ContextM α
    | .ok answer => pure answer
    | .error fault => throw fault

/-- Work on storage that may fail, and then leaves the context as it was. -/
def onStore {α : Type} (work : Store → Except Fault (α × Store)) : ContextM α := do
  let (answer, store) ← ask work
  modify fun context => { context with store }
  return answer

/-- A change of storage that may fail, and then leaves the context as it was. -/
def change (work : Store → Except Fault Store) : ContextM Unit := do
  let store ← ask work
  modify fun context => { context with store }

/-- Work on storage that cannot fail. -/
def allocating (work : Store → Addr × Store) : ContextM Addr :=
  onStore fun store => .ok (work store)

/-- Adds an event to the log, if events are recorded. -/
def record (event : Event) : ContextM Unit :=
  modify fun context =>
    if context.tracing then { context with log := context.log ++ [event] } else context

/-- Adds an event whose details have to be asked for, which happens only if events are
recorded. -/
def recordOf (details : ContextM Event) : ContextM Unit := do
  if (← get).tracing then record (← details)

/-! ## Default scopes -/

/-- The root that holds what is built in, made at its first use. -/
def baseScope : ContextM Addr := do
  match (← get).base with
  | some a => return a
  | none =>
      record .baseCreated
      let a ← allocating Store.newRoot
      modify fun context => { context with base := some a }
      return a

/-- The default top-level scope, a child of the base scope made at its first use. -/
def defaultGlobalScope : ContextM Addr := do
  match (← get).defaultGlobal with
  | some a => return a
  | none =>
      record .defaultGlobalCreated
      let parent ← baseScope
      let a ← allocating (·.newChild parent)
      modify fun context => { context with defaultGlobal := some a }
      return a

/-! ## Scopes -/

/-- The entry of a scope inside `parent`, which tells the depth of the chain. -/
def childEvent (parent : Addr) : ContextM Event :=
  return .childEntered (← ask (·.depth parent))

/-- A scope inside `parent`. -/
def child (parent : Addr) : ContextM Addr := do
  recordOf (childEvent parent)
  allocating (·.newChild parent)

/-- An empty scope inside the base scope. -/
def newScope : ContextM Addr := do
  let base ← baseScope
  allocating (·.newChild base)

/-- A top-level scope of its own, inside the default one. -/
def globalScope : ContextM Addr := do
  let parent ← defaultGlobalScope
  child parent

/-- Overwrites the nearest binding of `key`, or declares it in the scope at `a`. -/
def assign (a : Addr) (key : String) (value : Value) : ContextM Unit := do
  if (← ask (·.owner? a key)).isNone then
    record (.assignmentDeclared key)
  change (·.assign a key value)

/-! ## Lists -/

/-- A list made from a tuple; the refusal of anything else is recorded. -/
def listOfTuple (value : Value) : ContextM Addr := do
  match value with
  | .tuple _ => onStore (·.listOfTuple value)
  | other =>
      record (.conversionRejected other.tag)
      onStore (·.listOfTuple other)

/-! ## Changes in place -/

/-- Work on the value of a place: it answers, and gives the changed value back. -/
abbrev InPlace (ρ : Type) := Value → Context → ρ × Value × Context

/-- Runs work on a value while the storage that holds it is lent out. -/
def lending {ρ : Type} (a : Addr) (value : Value) (putBack : Store → Value → Store)
    (work : InPlace ρ) (context : Context) : ρ × Context :=
  let (answer, changed, after) := work value { context with store := context.store.lend a }
  (answer, { after with store := putBack after.store.regain changed })

/-- Changes the element of a list at `index` in place. -/
def withItem {ρ : Type} (a : Addr) (index : Index) (work : InPlace ρ) : ContextM ρ :=
  fun context =>
    match context.store.item a index with
    | .error fault => (.error fault, context)
    | .ok (position, value) =>
        let (answer, after) :=
          lending a value (fun store changed => store.setPosition a position changed) work context
        (.ok answer, after)

/-- Changes the nearest binding of `key` in place; a missing one is declared first. -/
def withEntry {ρ : Type} (a : Addr) (key : String) (work : InPlace ρ) : ContextM ρ :=
  fun context =>
    match context.store.entry a key with
    | .error fault => (.error fault, context)
    | .ok (owner, value, store) =>
        let (answer, after) :=
          lending owner value (fun store changed => store.setEntry owner key changed) work
            { context with store }
        (.ok answer, after)

end Context

end ScopedValues
