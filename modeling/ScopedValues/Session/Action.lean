import ScopedValues.Session.Place

/-!
Contract: what a step can do with the value at the end of its path.

Owns the actions for any value, for tuples, for lists and for maps, what each of
them needs, does and answers, and the value that it yields for a variable.

Does not own evaluating the values that actions are given.
-/

set_option autoImplicit false

namespace ScopedValues

/-! ## Actions -/

/-- An action on a tuple, with `ε` for the value that it is given. -/
inductive TupleAction (ε : Type) where
  | push (value : ε)
  | pop
  | extent
  | get (position : Nat)
  | items
  /-- The elements of a copy. -/
  | copiedItems
deriving Repr

/-- An action on a list, with `ε` for the value that it is given. -/
inductive ListAction (ε : Type) where
  | extent
  | get (index : Index)
  | set (index : Index) (value : ε)
  | push (value : ε)
  | pop (index : Option Index)
  | items
  | deepCopy
deriving Repr

/-- An action on a map, with `ε` for the value that it is given. -/
inductive MapAction (ε : Type) where
  | extent
  | contains (key : String)
  | find (key : String)
  | lookup (key : String)
  | erase (key : String)
  /-- Which scope of the chain binds a key. -/
  | owner (key : String)
  | assign (key : String) (value : ε)
  | insert (key : String) (value : ε)
  | child
  | deepCopy
  | parent
  | chain
  | entries
deriving Repr

/-- An action, with `ε` for the value that it is given. -/
inductive Action (ε : Type) where
  | read
  | kind
  | truth
  | spell
  | replace (value : ε)
  | onTuple (action : TupleAction ε)
  | onList (action : ListAction ε)
  | onMap (action : MapAction ε)
deriving Repr

/-- What a step answers and which value it yields. -/
structure Outcome where
  answer : Answer
  yielded : Option Value := none
deriving Repr, Inhabited

namespace Context

/-- The outcome of a value that is yielded; a quiet step does not look at it. -/
def yielding (quiet : Bool) (value : Value) : ContextM Outcome := do
  if quiet then return { answer := .nothing, yielded := some value }
  else return { answer := .shown (← shown value), yielded := some value }

/-- Like `yielding`, for a value that may be missing. -/
def yieldingAny (quiet : Bool) : Option Value → ContextM Outcome
  | some value => yielding quiet value
  | none => return { answer := .nothing }

end Context

/-! ## Lists -/

namespace ListAction

open Context

/-- Does an action on the list at `a`. -/
def run (quiet : Bool) (a : Addr) (action : ListAction Value) : ContextM Outcome := do
  match action with
  | .extent => return { answer := .extent (← ask (·.readList a)).length }
  | .get index => yielding quiet (← onStore (·.getItem a index))
  | .set index value => yielding quiet (← onStore (·.setItem a index value))
  | .push value =>
      change (·.push a value)
      return { answer := .count (← ask (·.readList a)).length }
  | .pop index => yielding quiet (← onStore (·.pop a index))
  | .items => return { answer := ← shownAll (← ask (·.readList a)) }
  | .deepCopy => yielding quiet (.list (← onStore (·.detach a)))

end ListAction

/-! ## Maps -/

namespace MapAction

open Context

/-- Where the scope that binds a key stands in the chain of `a`, and who holds it. -/
def ownerOutcome (holders : Addr → List String) (a : Addr) (key : String) :
    ContextM Outcome := do
  match ← ask (·.owner? a key) with
  | none => return { answer := .nothing }
  | some scope =>
      let chain := (← get).store.chain a
      return {
        answer := .several [
          .count (chain.idxOf scope),
          .several [.several ((holders scope).map .text)]]
        yielded := some (.map scope) }

/-- Every scope of the chain of `a` in plain form, and who holds it. -/
def chainAnswer (holders : Addr → List String) (a : Addr) : ContextM Answer := do
  let chain ← ask (·.enclosing a)
  let texts ← chain.mapM fun scope => ask (·.text (.map scope))
  return .several [
    .several (texts.map .text),
    .several (chain.map fun scope => .several ((holders scope).map .text))]

/-- The local bindings in declaration order. -/
def entriesAnswer (a : Addr) : ContextM Answer := do
  let table ← ask (·.bindings a)
  let rows ← table.entries.mapM fun entry =>
    return Answer.several [.text entry.1, .shown (← shown entry.2)]
  return .several rows

/-- Does an action on the map at `a`. `holders` tells which variables hold a map. -/
def run (holders : Addr → List String) (quiet : Bool) (a : Addr) (action : MapAction Value) :
    ContextM Outcome := do
  match action with
  | .extent => return { answer := .extent (← ask (·.bindings a)).size }
  | .contains key => return { answer := .flag ((← ask (·.bindings a)).contains key) }
  | .find key => yieldingAny quiet (← onStore (·.find a key))
  | .lookup key => yieldingAny quiet (← onStore (·.lookup a key))
  | .erase key => yieldingAny quiet (← onStore (·.erase a key))
  | .owner key => ownerOutcome holders a key
  | .assign key value =>
      Context.assign a key value
      return { answer := .nothing }
  | .insert key value => yieldingAny quiet (← onStore (·.insert a key value))
  | .child => yielding quiet (.map (← Context.child a))
  | .deepCopy => yielding quiet (.map (← onStore (·.detach a)))
  | .parent => yieldingAny quiet ((← ask (·.parent? a)).map .map)
  | .chain => return { answer := ← chainAnswer holders a }
  | .entries => return { answer := ← entriesAnswer a }

end MapAction

/-! ## Tuples and places -/

open Place

/-- Whether an action needs the tuple itself, not just its elements. -/
def TupleAction.needsPlace {ε : Type} : TupleAction ε → Bool
  | .push _ => true
  | .pop => true
  | _ => false

/-- Does an action on the tuple of a place. -/
def TupleAction.run (quiet : Bool) (action : TupleAction Value) : PlaceM Outcome := do
  if action.needsPlace then requireWritable
  let items ← hereAs Value.asTuple?
  match action with
  | .push value =>
      let copy ← inContext (Context.onStore (·.deepCopy value))
      exchange (.tuple (items ++ [copy]))
      return { answer := .count (items.length + 1) }
  | .pop =>
      match items with
      | [] => throw (.fault (.refused .emptyTuple))
      | first :: rest =>
          exchange (.tuple rest)
          inContext (Context.yielding quiet first)
  | .extent => return { answer := .extent items.length }
  | .get position =>
      match items[position]? with
      | none => return { answer := .nothing }
      | some element =>
          let copy ← inContext (Context.onStore (·.copy element))
          inContext (Context.yielding quiet copy)
  | .items => return { answer := ← inContext (Context.shownAll items) }
  | .copiedItems =>
      let copies ← inContext (Context.onStore (·.deepCopyAll items))
      return { answer := ← inContext (Context.shownAll copies) }

/-- Does an action at a place. `holders` tells which variables hold a map. -/
def Action.run (holders : Addr → List String) (quiet : Bool) (action : Action Value) :
    PlaceM Outcome := do
  match action with
  | .read =>
      let value ← here
      let copy ← inContext (Context.onStore (·.copy value))
      inContext (Context.yielding quiet copy)
  | .kind => return { answer := .text (← here).tag.name }
  | .truth =>
      let truth ← inContext (Context.truth? (← here))
      return { answer := .ofOption .flag truth }
  | .spell => return { answer := .spelled (← inContext (Context.spelled (← here))) }
  | .replace value =>
      requireWritable
      let old ← here
      exchange value
      inContext (Context.yielding quiet old)
  | .onTuple action => action.run quiet
  | .onList action =>
      let a ← hereAs Value.asList?
      inContext (action.run quiet a)
  | .onMap action =>
      let a ← hereAs Value.asMap?
      inContext (action.run holders quiet a)

end ScopedValues
