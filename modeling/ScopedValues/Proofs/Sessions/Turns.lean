import ScopedValues.Proofs.Sessions.Reachable

/-!
Contract: what comes after what in the life of a session.

Owns the moments of a session, the turns that lead from one to the next, runs of turns,
and what stays over a run.

Main statement: over every run, lists stay lists, scopes stay scopes, and every scope
keeps its parent.

The steps of a run can be restricted; entering and leaving a change in place never is.
-/

set_option autoImplicit false

namespace ScopedValues

open Store

/-- A session together with the changes in place that are under way, innermost first. -/
structure Moment where
  session : Session
  frames : List Frame

namespace Moment

abbrev store (moment : Moment) : Store :=
  moment.session.context.store

/-- A moment that can come about. -/
def Reached (moment : Moment) : Prop :=
  Session.Reached moment.session moment.frames

/-- One turn: a step that is permitted, or entering or leaving a change in place. -/
inductive Turn (permitted : Step → Prop) : Moment → Moment → Prop where
  | step (session : Session) (frames : List Frame) {step : Step} (allowed : permitted step) :
      Turn permitted ⟨session, frames⟩ ⟨(Session.perform step session).2, frames⟩
  | clearLog (session : Session) (frames : List Frame) :
      Turn permitted ⟨session, frames⟩ ⟨session.clearLog, frames⟩
  | enterItem {session : Session} (frames : List Frame) {name : String} {a : Addr}
      (handle : session.named.get? name = some (.list a)) {index : Index} {position : Nat}
      {value : Value} (found : session.context.store.item a index = .ok (position, value))
      (slot : String) :
      Turn permitted ⟨session, frames⟩
        ⟨session.enter (.item a position slot) value session.context.store,
          .item a position slot :: frames⟩
  | enterEntry {session : Session} (frames : List Frame) {name : String} {a : Addr}
      (handle : session.named.get? name = some (.map a)) {key : String} {owner : Addr}
      {value : Value} {store : Store}
      (found : session.context.store.entry a key = .ok (owner, value, store)) (slot : String) :
      Turn permitted ⟨session, frames⟩
        ⟨session.enter (.entry owner key slot) value store, .entry owner key slot :: frames⟩
  | leave (session : Session) (frame : Frame) (frames : List Frame) :
      Turn permitted ⟨session, frame :: frames⟩ ⟨session.leave frame, frames⟩

/-- Any number of turns, one after another. -/
abbrev Runs (permitted : Step → Prop) : Moment → Moment → Prop :=
  Relation.ReflTransGen (Turn permitted)

/-- A run with steps of every kind. -/
abbrev Later : Moment → Moment → Prop :=
  Runs fun _ => True

section Reaching

variable {permitted : Step → Prop} {before after : Moment}

theorem Turn.reached (turn : Turn permitted before after) (reached : before.Reached) :
    after.Reached := by
  cases turn with
  | step session frames _ => exact Session.Reached.step reached _
  | clearLog session frames => exact Session.Reached.clearLog reached
  | enterItem frames handle found slot => exact Session.Reached.enterItem reached handle found slot
  | enterEntry frames handle found slot =>
      exact Session.Reached.enterEntry reached handle found slot
  | leave session frame frames => exact Session.Reached.leave reached

theorem Runs.reached (run : Runs permitted before after) (reached : before.Reached) :
    after.Reached := by
  induction run with
  | refl => exact reached
  | tail _ turn inductionHypothesis => exact turn.reached inductionHypothesis

/-- Steps that are permitted make a run when they are performed in order. -/
theorem Runs.steps (session : Session) (frames : List Frame) {steps : List Step}
    (allowed : ∀ step ∈ steps, permitted step) :
    Runs permitted ⟨session, frames⟩ ⟨session.run steps, frames⟩ := by
  induction steps generalizing session with
  | nil => exact .refl
  | cons step rest inductionHypothesis =>
      rw [List.forall_mem_cons] at allowed
      exact .head (.step session frames allowed.1) (inductionHypothesis _ allowed.2)

/-! ## What stays -/

theorem Turn.retains (turn : Turn permitted before after) (reached : before.Reached) :
    before.store.Retains after.store := by
  have stands := Session.Reached.stands reached
  cases turn with
  | step session frames _ => exact (Session.steady_perform _ stands.sound).grows.store.toRetains
  | clearLog session frames => exact .refl _
  | enterItem frames handle found slot => exact .of_payloads (payloads_lend _ _)
  | enterEntry frames handle found slot =>
      have isScope := (Value.held_map _ _).mp (Session.get?_held stands.sound handle)
      have develops := (entry_keeps stands.sound.context.store isScope found).1
      exact develops.grows.toRetains.trans (.of_payloads (payloads_lend _ _))
  | leave session frame frames => exact stands.retains_leave

theorem Runs.retains (run : Runs permitted before after) (reached : before.Reached) :
    before.store.Retains after.store := by
  induction run with
  | refl => exact .refl _
  | tail sofar turn inductionHypothesis =>
      exact inductionHypothesis.trans (turn.retains (Runs.reached sofar reached))

end Reaching

end Moment

end ScopedValues
