import ScopedValues.Proofs.Habits.Fidelity
import ScopedValues.Proofs.Habits.Peace
import ScopedValues.Proofs.Sessions.Turns

/-!
Contract: what a record does to the session that is recorded.

Owns runs together with what their steps answer, and where the same run goes differently when
it is recorded.

Main statement: with and without a record, a step answers the same and leaves the same state,
unless it enters a scope from within a change in place that holds a scope of the chain. Then
it meets a conflict if it is recorded, since the record tells the depth of the chain, and
makes the scope if it is not.
-/

set_option autoImplicit false

namespace ScopedValues

open Session

namespace Moment

/-- The same moment with nothing recorded and nothing to be recorded. -/
def silent (moment : Moment) : Moment :=
  { moment with session := moment.session.silent }

/-- A turn that is no step: entering or leaving a change in place, or clearing the record. -/
abbrev Move : Moment → Moment → Prop :=
  Turn fun _ => False

/-- A run whose steps are permitted where they are performed, with what each of them answers. -/
inductive Tells (permitted : Session → Step → Prop) :
    Moment → List (Step × Except Failure Answer) → Moment → Prop where
  | done (moment : Moment) : Tells permitted moment [] moment
  | step {session : Session} {frames : List Frame} {step : Step}
      (allowed : permitted session step) {told : List (Step × Except Failure Answer)}
      {last : Moment} (rest : Tells permitted ⟨(perform step session).2, frames⟩ told last) :
      Tells permitted ⟨session, frames⟩ ((step, (perform step session).1) :: told) last
  | move {before middle last : Moment} {told : List (Step × Except Failure Answer)}
      (move : Move before middle) (rest : Tells permitted middle told last) :
      Tells permitted before told last

theorem Turn.silent {before after : Moment} (move : Move before after) :
    Move before.silent after.silent := by
  cases move with
  | step session frames impossible => exact impossible.elim
  | clearLog session frames => exact .clearLog session.silent frames
  | @enterItem session frames name a handle index position value found slot =>
      exact @Turn.enterItem _ session.silent frames name a handle index position value found slot
  | @enterEntry session frames name a handle key owner value store found slot =>
      exact @Turn.enterEntry _ session.silent frames name a handle key owner value store found slot
  | leave session frame frames => exact .leave session.silent frame frames

end Moment

namespace Session

/-- The step comes to the same without a record. -/
def Indifferent (session : Session) (step : Step) : Prop :=
  perform step session.silent = ((perform step session).1, (perform step session).2.silent)

/-- The step does not stop at a conflict in which entering a scope may have a part. -/
def Enters (session : Session) (step : Step) : Prop :=
  step.entersScope = true → (perform step session).1 ≠ .error (.fault .conflict)

theorem indifferent_of_enters {session : Session} {step : Step} (enters : session.Enters step) :
    session.Indifferent step :=
  (faithful_perform step session).resolve_left fun conflict => enters conflict.1 conflict.2

end Session

/-- A run tells the same without a record, if no scope that it enters is out of reach. -/
theorem Moment.Tells.silent {before after : Moment} {told : List (Step × Except Failure Answer)}
    (tells : Tells Session.Enters before told after) :
    Tells (fun _ _ => True) before.silent told after.silent := by
  induction tells with
  | done moment => exact .done moment.silent
  | @step session frames step enters told last _ inductionHypothesis =>
      -- The answer of the silent step is rewritten first: it stands in what is told.
      have same : perform step session.silent = _ := indifferent_of_enters enters
      have answer : (perform step session.silent).1 = (perform step session).1 := by rw [same]
      have after : (perform step session.silent).2 = (perform step session).2.silent := by rw [same]
      show Tells _ ⟨session.silent, frames⟩ _ _
      rw [← answer]
      refine .step trivial ?_
      rw [after]
      exact inductionHypothesis
  | move move _ inductionHypothesis => exact .move move.silent inductionHypothesis

namespace Session

/-- What a record does to a session while the changes of `frames` are under way. -/
structure Recorded (session : Session) (frames : List Frame) : Prop where
  step : ∀ step : Step,
    step.entersScope = true ∧ (perform step session).1 = .error (.fault .conflict) ∨
      session.Indifferent step
  outside : frames = [] → ∀ step : Step, step.worksInPlace = false → session.Indifferent step
  /-- A scope that is entered on the record is out of reach exactly from within a change in
  place that holds a scope of the chain. -/
  entering : ∀ parent, (Context.child parent session.context).1 = .error .conflict ↔
    session.context.tracing = true ∧
      ∃ scope ∈ session.context.store.chain parent, scope ∈ frames.map Frame.storage
  /-- Off the record it is always made. -/
  entered : ∀ parent, Context.child parent session.silent.context =
    (.ok session.context.store.size, { session.silent.context with
      store := (session.context.store.newChild parent).2 })
  run : ∀ told after, Moment.Tells Enters ⟨session, frames⟩ told after →
    Moment.Tells (fun _ _ => True) ⟨session.silent, frames⟩ told after.silent

/-- A record makes no difference, but where a scope is entered from within a change in place. -/
theorem Reached.recording {session : Session} {frames : List Frame}
    (reached : session.Reached frames) : session.Recorded frames where
  step step := faithful_perform step session
  outside := by
    rintro rfl step apart
    have calm := (peaceful_perform apart session reached.stands.lent).1
    exact indifferent_of_enters fun _ => calm
  entering parent := by
    rw [← reached.stands.lent]
    exact Context.child_eq_conflict_iff parent
  entered parent := Context.child_of_silent parent rfl
  run _ _ tells := tells.silent

/-- A scope that holds a scope inside it. -/
def enclosed (tracing : Bool) : Session :=
  (start tracing).run [
    .store "p" (.map .root [("x", .scalar (.str "one"))]),
    .store "c" (.map (.within "p") [("own", .scalar (.str "two"))]),
    .act "p" [] (.onMap (.insert "c" (.copy "c"))) {}]

theorem reachable_enclosed (tracing : Bool) : (enclosed tracing).Reachable :=
  (Reached.start tracing).run _

theorem recording_enclosed :
    (enclosed true).Reachable ∧ (enclosed true).Recorded [] :=
  ⟨reachable_enclosed true, (reachable_enclosed true).recording⟩

/-- Enters the inner scope while its entry in the outer one is being changed. -/
def enterInside : Step :=
  .act "p" [.entry "c"] (.onMap .child) {}

/-- Off the record the scope is made; on the record the same step meets a conflict. -/
theorem recording_enterInside :
    (enclosed true).Reachable ∧ (enclosed true).silent = enclosed false ∧
      (perform enterInside (enclosed true)).1 = .error (.fault .conflict) ∧
        (perform enterInside (enclosed false)).1 = .ok (.shown ⟨.map, "\x7b\x7d"⟩) ∧
          ¬ (enclosed true).Indifferent enterInside := by
  have onRecord : (perform enterInside (enclosed true)).1 = .error (.fault .conflict) := rfl
  have offRecord : (perform enterInside (enclosed false)).1 =
      .ok (.shown ⟨.map, "\x7b\x7d"⟩) := rfl
  refine ⟨reachable_enclosed true, rfl, onRecord, offRecord, fun same => ?_⟩
  have answers := congrArg Prod.fst same
  change (perform enterInside (enclosed false)).1 =
    (perform enterInside (enclosed true)).1 at answers
  rw [onRecord, offRecord] at answers
  cases answers

end Session

end ScopedValues
