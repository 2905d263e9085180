import ScopedValues.Session.Step

/-!
Contract: what a session tells about its steps.

Owns running steps one after another, with the text of watched variables and the
events of each step, and trials of an index on fresh lists.

Does not own the steps.
-/

set_option autoImplicit false

namespace ScopedValues

/-- What can be told after a step. -/
structure Report where
  answer : Except Failure Answer
  /-- The plain form of each watched variable. -/
  watched : List (Option String)
  /-- What the step recorded. -/
  events : List Event

namespace Session

/-- A session with no variables and with default scopes that are yet to be made. -/
def start (tracing : Bool) : Session :=
  { context := { tracing } }

/-- The plain form of a variable, if it is bound and has one. -/
def watchedText (session : Session) (name : String) : Option String :=
  match session.named.get? name with
  | none => none
  | some value => (session.context.store.text value).toOption

/-- Performs one step and listens to what it records. Its failure does not end the session. -/
def report (watch : List String) (step : Step) (session : Session) : Report × Session :=
  let fresh := { session with context := { session.context with tracing := true, log := [] } }
  let (answer, after) := perform step fresh
  ({ answer, watched := watch.map after.watchedText, events := after.context.log }, after)

/-- Performs steps one after another. -/
def reports (watch : List String) : List Step → Session → List Report
  | [], _ => []
  | step :: rest, session =>
      let (first, after) := report watch step session
      first :: reports watch rest after

/-- What a step answers on its own. -/
def answer (step : Step) : Except Failure Answer :=
  (report [] step (start false)).1.answer

end Session

/-! ## Trials of an index -/

/-- What one use of an index gave, and the list afterwards. -/
structure Trial where
  answer : Except Fault Shown
  after : Except Fault String

/-- What each use of an index does to a list. -/
structure IndexTrials where
  get : Trial
  set : Trial
  /-- Takes the element in place and leaves the absent value. -/
  inPlace : Trial
  pop : Trial

namespace Trial

/-- Uses a fresh list of the numbers below `length`. -/
def run (length : Nat) (use : Addr → ContextM Value) : Trial :=
  let items := (List.range length).map fun n => Value.num (Double.ofNat n)
  let (a, store) := Store.newList {} items
  let (answer, after) := (do Context.shown (← use a) : ContextM Shown) { store }
  { answer, after := after.store.text (.list a) }

end Trial

namespace Index

/-- Tries an index in every way on lists of the numbers below `length`. -/
def trials (index : Index) (length : Nat) : IndexTrials where
  get := Trial.run length fun a => Context.onStore (·.getItem a index)
  set := Trial.run length fun a => Context.onStore (·.setItem a index (Value.str "new"))
  inPlace := Trial.run length fun a =>
    Context.withItem a index fun value context => (value, Value.none, context)
  pop := Trial.run length fun a => Context.onStore (·.pop a (some index))

end Index

end ScopedValues
