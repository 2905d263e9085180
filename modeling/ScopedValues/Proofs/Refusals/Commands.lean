import ScopedValues.Proofs.Habits.Steps
import ScopedValues.Proofs.Sessions.Reachable

/-!
Contract: programs of calls whose values are given beforehand.

Owns calls, commands, which are calls and changes in place with commands inside, what each of them
replies, which replies are refusals, and a program without the commands that were refused.

Main statement: a change in place enters the place that it finds, does its work, and leaves; where
it finds none it does nothing.

Does not own what a refusal or a success comes to.
-/

set_option autoImplicit false

namespace ScopedValues

open Store

/-! ## Calls -/

/-- A call of an operation on lists, tuples, maps or cursors, or of a conversion. A call that is
refused drops the value that it was given. -/
inductive Call where
  /-- An action on the value of a variable, which enters no scope. -/
  | act (name : String) (action : Action Value) (apart : action.entersScope = false)
      (keep : Option String)
  | toList (value : Value) (keep : Option String)
  | cursorOver (cursor : String) (value : Value)
  | cursorNext (cursor : String) (keep : Option String)
  | cursorReset (cursor : String)

namespace Session

/-- Moves the value that work yields, if any, into a variable. -/
def moving (keep : Option String) (work : SessionM Outcome) : SessionM Outcome := do
  let outcome ← work
  let _ ← keeping { name := keep } outcome
  return outcome

end Session

namespace Call

open Session

def run : Call → SessionM Outcome
  | .act name action _ keep => do
      let holders := holders (← get).named
      moving keep (atPath name [] (action.run holders true))
  | .toList value keep => moving keep do
      let a ← inContext (Context.listOfTuple value)
      return { answer := .nothing, yielded := some (.list a) }
  | .cursorOver cursor value => do
      match Cursor.over? value with
      | some fresh =>
          setCursor cursor fresh
          return { answer := .flag true }
      | none => return { answer := .flag false }
  | .cursorNext cursor keep => do
      let current ← cursor? cursor
      let (found, after) ← inContext (Context.onStore current.next)
      setCursor cursor after
      moving keep (return { answer := .nothing, yielded := found })
  | .cursorReset cursor => do
      let current ← cursor? cursor
      setCursor cursor current.reset
      return { answer := .nothing }

end Call

/-! ## Changes in place -/

/-- What a change in place begins at. -/
inductive Door where
  | item (index : Index)
  | entry (key : String)

/-- The change in place that begins at a door of a value. -/
def Door.through {ρ : Type} (work : Context.InPlace ρ) :
    Door → Value → Except Failure (ContextM ρ)
  | .item index, .list a => .ok (Context.withItem a index work)
  | .entry key, .map a => .ok (Context.withEntry a key work)
  | _, other => .error (.wrongType other.tag)

namespace Session

variable {ρ : Type}

/-- Work in a session as work on a value in place, which a variable stands for meanwhile. -/
def inside (slot : String) (work : StateM Session ρ) (session : Session) :
    Context.InPlace (ρ × Session) :=
  fun value context =>
    let (reply, after) := work { session with
      context
      named := session.named.insert slot value }
    ((reply, after), (after.named.get? slot).getD Value.none, after.context)

/-- Does work in a session while a place inside the value of a variable is changed. -/
def within (name : String) (door : Door) (slot : String) (work : StateM Session ρ) :
    SessionM ρ := do
  let value ← valueOf name
  let session ← get
  match door.through (inside slot work session) value with
  | .error failure => throw failure
  | .ok change =>
      let (reply, after) ← inContext change
      modify fun current => { after with
        context := current.context
        named := after.named.erase slot }
      return reply

end Session

/-! ## Commands -/

/-- A call, or a change in place with commands inside. -/
inductive Command where
  | call (call : Call)
  | within (name : String) (door : Door) (slot : String) (work : List Command)

inductive Reply where
  | told (outcome : Except Failure Outcome)
  /-- A change in place was not begun. -/
  | stopped (failure : Failure)
  | done (replies : List Reply)

def Reply.ofChange : Except Failure (List Reply) → Reply
  | .ok replies => .done replies
  | .error failure => .stopped failure

namespace Command

mutual

def run : Command → StateM Session Reply
  | .call made => fun session =>
      let (outcome, after) := made.run session
      (.told outcome, after)
  | .within name door slot work => fun session =>
      let (outcome, after) := Session.within name door slot (runAll work) session
      (.ofChange outcome, after)
termination_by structural command => command

/-- Runs commands in order, whether they fail or not. -/
def runAll : List Command → StateM Session (List Reply)
  | [] => fun session => ([], session)
  | command :: rest => fun session =>
      let (reply, later) := run command session
      let (replies, after) := runAll rest later
      (reply :: replies, after)
termination_by structural commands => commands

end

section Runs

theorem run_call (made : Call) (session : Session) :
    (call made).run session = (.told (made.run session).1, (made.run session).2) := rfl

theorem run_within (name : String) (door : Door) (slot : String) (work : List Command)
    (session : Session) :
    (within name door slot work).run session =
      (.ofChange (Session.within name door slot (runAll work) session).1,
        (Session.within name door slot (runAll work) session).2) := rfl

theorem runAll_cons (command : Command) (rest : List Command) (session : Session) :
    runAll (command :: rest) session =
      ((command.run session).1 :: (runAll rest (command.run session).2).1,
        (runAll rest (command.run session).2).2) := rfl

end Runs

end Command

/-! ## Refusals -/

def Fault.isRefusal : Fault → Bool
  | .refused _ => true
  | _ => false

def Failure.isRefusal : Failure → Bool
  | .fault reason => reason.isRefusal
  | _ => false

namespace Reply

def isRefusal : Reply → Bool
  | .told (.error failure) => failure.isRefusal
  | .stopped failure => failure.isRefusal
  | _ => false

mutual

/-- The reply without the refusals inside it. -/
def accepted : Reply → Reply
  | .done replies => .done (acceptedOf replies)
  | reply => reply
termination_by structural reply => reply

/-- The replies that are no refusals, each without the refusals inside it. -/
def acceptedOf : List Reply → List Reply
  | [] => []
  | reply :: rest =>
      if reply.isRefusal then acceptedOf rest else accepted reply :: acceptedOf rest
termination_by structural replies => replies

end

end Reply

namespace Command

mutual

/-- The command without the commands inside it that were refused. -/
def pruned : Command → Reply → Command
  | .within name door slot work, .done replies => .within name door slot (prunedOf work replies)
  | command, _ => command
termination_by structural command => command

/-- The commands that were not refused, each without those inside it that were. -/
def prunedOf : List Command → List Reply → List Command
  | command :: rest, reply :: replies =>
      if reply.isRefusal then prunedOf rest replies
      else pruned command reply :: prunedOf rest replies
  | _, _ => []
termination_by structural commands => commands

end

end Command

/-! ## A change in place comes to entering, work and leaving -/

/-- The change in place that a door leads to, with the value and the storage that it begins with. -/
def Door.find (store : Store) (slot : String) :
    Door → Value → Except Failure (Frame × Value × Store)
  | .item index, .list a =>
      match store.item a index with
      | .ok (position, value) => .ok (.item a position slot, value, store)
      | .error fault => .error (.fault fault)
  | .entry key, .map a =>
      match store.entry a key with
      | .ok (owner, value, after) => .ok (.entry owner key slot, value, after)
      | .error fault => .error (.fault fault)
  | _, other => .error (.wrongType other.tag)

namespace Session

variable {ρ : Type} {session : Session} {name slot : String} {door : Door} {handle : Value}

theorem inContext_of_error {change : ContextM ρ} {fault : Fault}
    (stopped : change session.context = (.error fault, session.context)) :
    inContext change session = (.error (.fault fault), session) := by
  rw [inContext_eq, stopped]
  rfl

theorem inContext_of_ok {change : ContextM ρ} {answer : ρ} {after : Context}
    (changed : change session.context = (.ok answer, after)) :
    inContext change session = (.ok answer, { session with context := after }) := by
  rw [inContext_eq, changed]
  rfl

theorem within_of_unbound (unbound : session.named.get? name = none) (work : StateM Session ρ) :
    within name door slot work session = (.error (.unbound name), session) :=
  Discipline.bind_of_error (valueOf_of_unbound unbound)

theorem within_of_bound (bound : session.named.get? name = some handle)
    (work : StateM Session ρ) :
    within name door slot work session =
      match door.find session.context.store slot handle with
      | .error failure => (.error failure, session)
      | .ok (frame, value, store) =>
          (.ok (work (session.enter frame value store)).1,
            (work (session.enter frame value store)).2.leave frame) := by
  refine (Discipline.bind_of_ok (valueOf_of_bound bound)).trans ?_
  refine (Discipline.bind_get _ session).trans ?_
  -- A door goes with one kind of value; before any other it fails at once.
  cases door with
  | item index =>
      cases handle with
      | list a =>
          cases found : session.context.store.item a index with
          | error fault =>
              have stopped := inContext_of_error
                (Context.withItem_of_fault found (inside slot work session))
              refine (Discipline.bind_of_error stopped).trans ?_
              simp only [Door.find, found]
          | ok place =>
              obtain ⟨position, value⟩ := place
              have changed := inContext_of_ok
                (Context.withItem_of_found found (inside slot work session))
              refine (Discipline.bind_of_ok changed).trans ?_
              simp only [Door.find, found]
              rfl
      | _ => rfl
  | entry key =>
      cases handle with
      | map a =>
          cases found : session.context.store.entry a key with
          | error fault =>
              have stopped := inContext_of_error
                (Context.withEntry_of_fault found (inside slot work session))
              refine (Discipline.bind_of_error stopped).trans ?_
              simp only [Door.find, found]
          | ok place =>
              obtain ⟨owner, value, store⟩ := place
              have changed := inContext_of_ok
                (Context.withEntry_of_found found (inside slot work session))
              refine (Discipline.bind_of_ok changed).trans ?_
              simp only [Door.find, found]
              rfl
      | _ => rfl

end Session

end ScopedValues
