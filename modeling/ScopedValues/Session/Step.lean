import ScopedValues.Session.Action
import ScopedValues.Session.Expr

/-!
Contract: the steps of a session.

Owns the steps, the order in which the parts of a step take place, and what a step
leaves behind in variables and cursors.

Does not own the actions at the end of a path.
-/

set_option autoImplicit false

namespace ScopedValues

/-- What becomes of a value that a step yields. -/
structure Keep where
  /-- The variable that it is moved into. -/
  name : Option String := none
  /-- Whether it is left out of the answer. -/
  quiet : Bool := false
deriving DecidableEq, Repr

inductive Step where
  /-- Binds a variable. -/
  | store (name : String) (value : Expr)
  | drop (name : String)
  | look (value : Operand)
  | profile (value : Operand)
  | inspect (value : Operand)
  | compare (left right : Operand)
  /-- Whether two lists, or two maps, are the same one. -/
  | identical (left right : Operand)
  | descends (inner outer : Operand)
  | scope (scope : ScopeExpr) (keep : Keep)
  /-- Assigns a key in a new top-level scope. -/
  | globalScope (key : String) (value : Expr) (keep : Keep)
  /-- Describes a new scope, and a copy of it, under the parent that a variable holds. -/
  | scopeData (parent : Option String)
  | toList (value : Operand) (keep : Keep)
  | cursorOver (cursor : String) (value : Operand)
  | cursorNext (cursor : String) (keep : Keep)
  | cursorReset (cursor : String)
  | cursorPass (cursor : String) (count : Option Nat)
  | idle
  /-- Runs steps several times, up to the first failure. -/
  | loop (count : Nat) (steps : List Step)
  /-- Does an action at the end of a path that starts at a variable. -/
  | act (name : String) (path : List Hop) (action : Action Expr) (keep : Keep)
deriving Repr

/-! ## Values given to actions -/

section Given

variable {m : Type → Type} [Monad m] {α β : Type}

def TupleAction.give (value : α → m β) : TupleAction α → m (TupleAction β)
  | .push x => return .push (← value x)
  | .pop => return .pop
  | .extent => return .extent
  | .get position => return .get position
  | .items => return .items
  | .copiedItems => return .copiedItems

def ListAction.give (value : α → m β) : ListAction α → m (ListAction β)
  | .extent => return .extent
  | .get index => return .get index
  | .set index x => return .set index (← value x)
  | .push x => return .push (← value x)
  | .pop index => return .pop index
  | .items => return .items
  | .deepCopy => return .deepCopy

def MapAction.give (value : α → m β) : MapAction α → m (MapAction β)
  | .extent => return .extent
  | .contains key => return .contains key
  | .find key => return .find key
  | .lookup key => return .lookup key
  | .erase key => return .erase key
  | .owner key => return .owner key
  | .assign key x => return .assign key (← value x)
  | .insert key x => return .insert key (← value x)
  | .child => return .child
  | .deepCopy => return .deepCopy
  | .parent => return .parent
  | .chain => return .chain
  | .entries => return .entries

/-- The same action with the value that it is given evaluated. -/
def Action.give (value : α → m β) : Action α → m (Action β)
  | .read => return .read
  | .kind => return .kind
  | .truth => return .truth
  | .spell => return .spell
  | .replace x => return .replace (← value x)
  | .onTuple action => return .onTuple (← action.give value)
  | .onList action => return .onList (← action.give value)
  | .onMap action => return .onMap (← action.give value)

end Given

namespace Session

/-! ## Parts of steps -/

/-- Moves the yielded value, if any, into its variable. -/
def keeping (keep : Keep) (outcome : Outcome) : SessionM Answer := do
  match keep.name, outcome.yielded with
  | some name, some value => bind name value
  | _, _ => pure ()
  return outcome.answer

/-- Shows a value and moves it into its variable. -/
def yielding (keep : Keep) (value : Option Value) : SessionM Answer := do
  keeping keep (← inContext (Context.yieldingAny keep.quiet value))

def cursor? (name : String) : SessionM Cursor := do
  match (← get).cursors.get? name with
  | some cursor => return cursor
  | none => throw (.unbound name)

def setCursor (name : String) (cursor : Cursor) : SessionM Unit :=
  modify fun session => { session with cursors := session.cursors.insert name cursor }

/-- Does work at the end of a path that starts at a variable. -/
def atPath (name : String) (path : List Hop) (work : PlaceM Outcome) : SessionM Outcome := do
  let value ← valueOf name
  let session ← get
  let (answer, place) :=
    Place.follow path work { value, writable := true, context := session.context }
  set { session with
    context := place.context
    named := session.named.insert name place.value }
  match answer with
  | .ok outcome => return outcome
  | .error failure => throw failure

/-- Whether two lists, or two maps, are the same one; nothing for other values. -/
def identity : Value → Value → Answer
  | .list a, .list b => .flag (a == b)
  | .map a, .map b => .flag (a == b)
  | _, _ => .nothing

def descent (inner outer : Value) : ContextM Answer :=
  match inner, outer with
  | .map a, .map b => return .flag (← Context.ask (·.descends a b))
  | _, _ => return .nothing

/--
Assigns a key in a new top-level scope, and tells whether a second handle is the
same scope, what it finds, whether the scope is inside the default one, and its text.
-/
def globalOutcome (key : String) (value : Value) : ContextM Outcome := do
  let scope ← Context.globalScope
  Context.assign scope key value
  let found ← Context.onStore (·.lookup scope key)
  let shown ← found.mapM Context.shown
  let bound := (← Context.ask (·.bindings scope)).contains key
  let enclosing ← Context.defaultGlobalScope
  let inside ← Context.ask (·.descends scope enclosing)
  let text ← Context.ask (·.text (.map scope))
  return {
    answer := .several [
      identity (.map scope) (.map scope), .ofOption .shown shown, .flag bound, .flag inside,
      .text text]
    yielded := some (.map scope) }

/-- The inspected form of an empty scope, given that of its parent. -/
def scopeDataText (parent : Option String) : String :=
  let parentText := match parent with
    | some text => "Some(" ++ text ++ ")"
    | none => "None"
  "MapData \x7b map: " ++ Tree.bindingsInspected [] ++ ", parent: " ++ parentText ++ " \x7d"

/-- The inspected form of a map without the name of its kind, if it has one. -/
def scopeText? (a : Addr) : ContextM (Option String) := do
  let tree ← Context.ask fun store =>
    store.unfold (fun _ scope => .ok scope.parent.isSome) (.map a)
  match tree with
  | .map enclosed entries =>
      return (Tree.inspectEntries? entries).map (Tree.scopeInspected enclosed)
  | _ => return none

/--
Describes a new scope under `parent`: its size, the text of its parent, whether a
copy has the same parent, that a scope without a parent is empty, and its own text.
-/
def scopeDataAnswer (parent : Option Addr) : ContextM Answer := do
  match parent with
  | none =>
      return .several [.count 0, .nothing, .nothing, .flag true, .text (scopeDataText none)]
  | some a =>
      let text ← Context.ask (·.text (.map a))
      let inspected ← scopeText? a
      return .several [
        .count 0, .text text, identity (.map a) (.map a), .flag true,
        .ofOption (fun inner => .text (scopeDataText (some inner))) inspected]

/-- The elements of a pass, at most `count` of them if a count is given. -/
def passing (name : String) (count : Option Nat) : SessionM Answer := do
  let cursor ← cursor? name
  let (values, after) ← inContext <| Context.onStore <|
    match count with
    | some count => cursor.take count
    | none => cursor.pass
  setCursor name after
  inContext (Context.shownAll values)

/-- Does work several times and answers what the last time answers. -/
def repeatedly (work : SessionM Answer) : Nat → SessionM Answer
  | 0 => return .nothing
  | count + 1 => do
      let answer ← work
      if count = 0 then return answer else repeatedly work count

/-! ## Steps -/

mutual

def perform : Step → SessionM Answer
  | .store name value => do
      let value ← eval value
      let shown ← inContext (Context.shown value)
      bind name value
      return .shown shown
  | .drop name => do
      let bound := (← get).named.contains name
      unbind name
      return .flag bound
  | .look value => do
      let value ← operand value
      return .shown (← inContext (Context.shown value))
  | .profile value => do
      let value ← operand value
      return .profile (← inContext (Context.profile value))
  | .inspect value => do
      let value ← operand value
      return .ofOption .text (← inContext (Context.ask (·.inspect? value)))
  | .compare left right => do
      let (x, y) ← operands left right
      return .comparison (← inContext (Context.compare x y))
  | .identical left right => do
      let (x, y) ← operands left right
      return identity x y
  | .descends inner outer => do
      let (x, y) ← operands inner outer
      inContext (descent x y)
  | .scope scope keep => do yielding keep (some (.map (← evalScope scope)))
  | .globalScope key value keep => do
      let value ← eval value
      keeping keep (← inContext (globalOutcome key value))
  | .scopeData parent => do
      let parent ← parent.mapM scopeOf
      inContext (scopeDataAnswer parent)
  | .toList value keep => do
      let value ← operand value
      yielding keep (some (.list (← inContext (Context.listOfTuple value))))
  | .cursorOver cursor value => do
      match Cursor.over? (← operand value) with
      | some fresh =>
          setCursor cursor fresh
          return .flag true
      | none => return .flag false
  | .cursorNext cursor keep => do
      let current ← cursor? cursor
      let (found, after) ← inContext (Context.onStore current.next)
      setCursor cursor after
      yielding keep found
  | .cursorReset cursor => do
      let current ← cursor? cursor
      setCursor cursor current.reset
      return .nothing
  | .cursorPass cursor count => passing cursor count
  | .idle => return .nothing
  | .loop count steps => repeatedly (performAll steps) count
  | .act name path action keep => do
      let action ← action.give eval
      let holders := holders (← get).named
      keeping keep (← atPath name path (action.run holders keep.quiet))
termination_by structural step => step

/-- Performs steps in order and answers what the last one answers. -/
def performAll : List Step → SessionM Answer
  | [] => return .nothing
  | step :: rest => do
      let answer ← perform step
      if rest.isEmpty then return answer else performAll rest
termination_by structural steps => steps

end

end Session

end ScopedValues
