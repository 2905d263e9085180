import ScopedValues.Proofs.Habits.Fidelity
import ScopedValues.Proofs.Refusals.Unmoved

/-!
Contract: programs without the commands that were refused.

Owns the habits of calls, runs with and without a record, and the comparison of a run with the
one that leaves the refused commands out.

Main statement: without the commands that were refused, a program replies the same to all others
and comes to the same session, but for what has been recorded.

Does not own what a command does that succeeds.

A refusal can leave a record behind, so the runs are compared without records first: there a
refused command leaves the very same session, and the two runs stay together.
-/

set_option autoImplicit false

namespace ScopedValues

/-! ## Calls -/

namespace Habit

variable (habit : Habit)

open Session

theorem moving {work : SessionM Outcome} (has : habit.Has work) (keep : Option String) :
    habit.Has (Session.moving keep work) :=
  habit.bind has fun outcome => habit.bind (habit.keeping _ outcome) fun _ => habit.pure _

theorem call (call : Call) : habit.Has call.run := by
  cases call with
  | act name action apart keep =>
      refine habit.look (fun _ => rfl) fun session => habit.moving (habit.atPath ?_) keep
      refine habit.action (holders session.named) true fun entering => ?_
      rw [apart] at entering
      cases entering
  | toList value keep =>
      exact habit.moving (habit.bind (habit.inSession (habit.listOfTuple value))
        fun _ => habit.pure _) keep
  | cursorOver cursor value =>
      simp only [Call.run]
      cases Cursor.over? value with
      | none => exact habit.pure _
      | some fresh => exact habit.bind (habit.setCursor cursor fresh) fun _ => habit.pure _
  | cursorNext cursor keep =>
      refine habit.bind (habit.cursor? cursor) fun current => ?_
      refine habit.bind (habit.inSession (habit.onStore fun _ idle =>
        Cursor.undisturbed_next idle current)) fun answer => ?_
      exact habit.bind (habit.setCursor cursor answer.2) fun _ => habit.moving (habit.pure _) keep
  | cursorReset cursor =>
      exact habit.bind (habit.cursor? cursor) fun current =>
        habit.bind (habit.setCursor cursor current.reset) fun _ => habit.pure _

end Habit

/-! ## Changes in place -/

namespace Session

variable {ρ : Type} {session : Session} {name slot : String} {door : Door}

/-- A change in place that is begun enters the same place whatever its work is. -/
theorem within_of_ok {work : StateM Session ρ} {reply : ρ} {after : Session}
    (done : within name door slot work session = (.ok reply, after)) :
    ∃ (frame : Frame) (value : Value) (store : Store), ∀ {κ : Type} (other : StateM Session κ),
      within name door slot other session =
        (.ok (other (session.enter frame value store)).1,
          (other (session.enter frame value store)).2.leave frame) := by
  cases bound : session.named.get? name with
  | none =>
      rw [within_of_unbound bound] at done
      cases done
  | some handle =>
      cases found : door.find session.context.store slot handle with
      | error failure =>
          rw [within_of_bound bound, found] at done
          cases done
      | ok place =>
          obtain ⟨frame, value, store⟩ := place
          refine ⟨frame, value, store, fun other => ?_⟩
          rw [within_of_bound bound, found]

/-- A change in place is faithful if its work is. -/
theorem within_silent {work : StateM Session ρ}
    (faithful : ∀ session : Session,
      work session.silent = ((work session).1, (work session).2.silent)) (session : Session) :
    within name door slot work session.silent =
      ((within name door slot work session).1, (within name door slot work session).2.silent) := by
  cases bound : session.named.get? name with
  | none =>
      have silent : session.silent.named.get? name = none := bound
      rw [within_of_unbound bound, within_of_unbound silent]
  | some handle =>
      have silent : session.silent.named.get? name = some handle := bound
      rw [within_of_bound bound, within_of_bound silent]
      have same : session.silent.context.store = session.context.store := rfl
      rw [same]
      cases door.find session.context.store slot handle with
      | error failure => rfl
      | ok place =>
          obtain ⟨frame, value, store⟩ := place
          have inside := faithful (session.enter frame value store)
          exact congrArg (fun outcome : ρ × Session =>
            ((.ok outcome.1 : Except Failure ρ), outcome.2.leave frame)) inside

end Session

/-! ## Runs without a record -/

namespace Command

theorem call_run_silent (made : Call) (session : Session) :
    made.run session.silent = ((made.run session).1, (made.run session).2.silent) :=
  ((Habit.fidelity False).call made session).resolve_left fun excused => excused.1

mutual

/-- A command replies the same and leaves the same session, whether or not it is recorded. -/
theorem run_silent : ∀ (command : Command) (session : Session),
    command.run session.silent = ((command.run session).1, (command.run session).2.silent)
  | .call made, session => by
      rw [run_call, run_call, call_run_silent]
  | .within name door slot work, session => by
      rw [run_within, run_within, Session.within_silent (runAll_silent work)]
termination_by structural command => command

theorem runAll_silent : ∀ (commands : List Command) (session : Session),
    runAll commands session.silent =
      ((runAll commands session).1, (runAll commands session).2.silent)
  | [], _ => rfl
  | command :: rest, session => by
      rw [runAll_cons, runAll_cons, run_silent command, runAll_silent rest]
termination_by structural commands => commands

end

/-- Where nothing is recorded, nothing has been recorded afterwards either. -/
theorem silent_of_silent {session : Session} (silent : session.silent = session)
    (command : Command) : (command.run session).2.silent = (command.run session).2 := by
  have same := command.run_silent session
  rw [silent] at same
  exact (congrArg Prod.snd same).symm

/-! ## Programs without the refused commands -/

/-- Where nothing is recorded, a refused command leaves the very same session. -/
theorem same_of_refused {command : Command} {session : Session}
    (silent : session.silent = session) (refused : (command.run session).1.isRefusal = true) :
    (command.run session).2 = session := by
  rw [← silent_of_silent silent command, (unmoved_of_refused refused).silent, silent]

mutual

theorem run_pruned : ∀ (command : Command) {session : Session}, session.silent = session →
    (command.pruned (command.run session).1).run session =
      ((command.run session).1.accepted, (command.run session).2)
  | .call _, _, _ => rfl
  | .within name door slot work, session, silent => by
      rw [run_within]
      rcases done : Session.within name door slot (runAll work) session with
        ⟨failure | replies, after⟩
      · show (within name door slot work).run session = _
        rw [run_within, done]
        rfl
      -- The place is the same one without the refused commands, so the work inside begins alike.
      · obtain ⟨frame, value, store, enters⟩ := Session.within_of_ok done
        have entered : (session.enter frame value store).silent =
            session.enter frame value store :=
          congrArg (fun session : Session => session.enter frame value store) silent
        have inner := runAll_pruned work entered
        rw [enters] at done
        obtain ⟨answered, rfl⟩ := Prod.mk.inj done
        obtain rfl := Except.ok.inj answered
        rw [Reply.ofChange, pruned, Reply.accepted, run_within, enters, inner]
        rfl
termination_by structural command => command

/-- Where nothing is recorded, the refused commands can be left out. -/
theorem runAll_pruned : ∀ (commands : List Command) {session : Session},
    session.silent = session →
      runAll (prunedOf commands (runAll commands session).1) session =
        (Reply.acceptedOf (runAll commands session).1, (runAll commands session).2)
  | [], _, _ => rfl
  | command :: rest, session, silent => by
      have onward := runAll_pruned rest (silent_of_silent silent command)
      rw [runAll_cons, prunedOf, Reply.acceptedOf]
      split
      -- The rest begins where it would have begun without the refused command.
      · next refused =>
          rw [same_of_refused silent refused] at onward ⊢
          exact onward
      · rw [runAll_cons, run_pruned command silent, onward]
termination_by structural commands => commands

end

/-- Without the commands that were refused, a program replies the same to all others and comes
to the same session, but for what has been recorded. -/
theorem prune (program : List Command) (session : Session) :
    (runAll (prunedOf program (runAll program session).1) session).1 =
        Reply.acceptedOf (runAll program session).1 ∧
      (runAll (prunedOf program (runAll program session).1) session).2.silent =
        (runAll program session).2.silent := by
  have pruned := @runAll_pruned program session.silent rfl
  rw [runAll_silent program, runAll_silent] at pruned
  exact Prod.mk.inj pruned

end Command

end ScopedValues
