import ScopedValues.Proofs.Habits.Steps
import ScopedValues.Proofs.Sessions.Defaults
import ScopedValues.Proofs.Sessions.Steps

/-!
Contract: work that meets no conflict.

Owns peace: started where nothing is lent out, work meets no conflict and lends out nothing.

Main statement: a step that does not work in place is peaceful.
-/

set_option autoImplicit false

namespace ScopedValues

open Store

/-- Where nothing is lent out, the work meets no conflict and leaves nothing lent out. -/
def Peaceful {σ ε α : Type} [Setting σ ε] (work : ExceptT ε (StateM σ) α) : Prop :=
  ∀ before : σ, (Setting.store before).lent = [] →
    (work before).1 ≠ .error (Setting.conflict σ) ∧ (Setting.store (work before).2).lent = []

namespace Peaceful

section General

variable {σ ε α β : Type} [Setting σ ε]

theorem of_eq {work : ExceptT ε (StateM σ) α}
    (each : ∀ before : σ, (Setting.store before).lent = [] → ∃ answer after,
      work before = (answer, after) ∧ answer ≠ .error (Setting.conflict σ) ∧
        (Setting.store after).lent = []) : Peaceful work := by
  intro before idle
  obtain ⟨answer, after, done, calm, still⟩ := each before idle
  rw [done]
  exact ⟨calm, still⟩

theorem pure (x : α) : Peaceful (Pure.pure x : ExceptT ε (StateM σ) α) :=
  .of_eq fun before idle => ⟨.ok x, before, rfl, by simp, idle⟩

theorem throw {failure : ε} (other : failure ≠ Setting.conflict σ) :
    Peaceful (throw failure : ExceptT ε (StateM σ) α) :=
  .of_eq fun before idle => ⟨.error failure, before, rfl, by simpa using other, idle⟩

theorem bind {work : ExceptT ε (StateM σ) α} {next : α → ExceptT ε (StateM σ) β}
    (first : Peaceful work) (rest : ∀ x, Peaceful (next x)) : Peaceful (work >>= next) := by
  refine .of_eq fun before idle => ?_
  obtain ⟨calm, still⟩ := first before idle
  rcases done : work before with ⟨outcome, later⟩
  rw [done] at calm still
  cases outcome with
  | error failure =>
      exact ⟨_, _, Discipline.bind_of_error done, fun same => calm (by cases same; rfl), still⟩
  | ok x =>
      exact ⟨_, _, Discipline.bind_of_ok done, rest x later still⟩

theorem look {next : σ → ExceptT ε (StateM σ) β} (rest : ∀ state, Peaceful (next state)) :
    Peaceful (get >>= next) :=
  fun before idle => rest before before idle

theorem update {change : σ → σ}
    (aside : ∀ state : σ, Setting.store (change state) = Setting.store state) :
    Peaceful (modify change : ExceptT ε (StateM σ) PUnit) :=
  .of_eq fun before idle =>
    ⟨.ok ⟨⟩, change before, rfl, by simp, (congrArg Store.lent (aside before)).trans idle⟩

end General

/-! ## Contexts -/

section Contexts

open Context

variable {α : Type}

theorem ask {question : Store → Except Fault α}
    (calm : ∀ store : Store, store.lent = [] → Calm (question store)) :
    Peaceful (Context.ask question) :=
  .of_eq fun before idle =>
    ⟨question before.store, before, ask_eq question before,
      fun conflict => calm before.store idle .conflict conflict rfl, idle⟩

theorem onStore {work : Store → Except Fault (α × Store)}
    (quiet : ∀ store : Store, store.lent = [] → Undisturbed (work store)) :
    Peaceful (Context.onStore work) := by
  refine .of_eq fun before idle => ?_
  obtain ⟨calm, still⟩ := quiet before.store idle
  cases worked : work before.store with
  | error fault =>
      have asked : Context.ask work before = (.error fault, before) := by rw [ask_eq, worked]
      refine ⟨_, _, Discipline.bind_of_error asked, fun same => ?_, idle⟩
      cases same
      exact calm .conflict worked rfl
  | ok answer =>
      obtain ⟨x, store⟩ := answer
      exact ⟨_, _, onStore_eq_ok worked, by simp, still x store worked⟩

theorem record (event : Event) : Peaceful (Context.record event) :=
  .of_eq fun before idle => ⟨_, _, record_eq event before, by simp, idle⟩

theorem baseScope : Peaceful Context.baseScope := by
  refine .of_eq fun context idle => ⟨_, _, baseScope_eq context, by simp, ?_⟩
  obtain ⟨store, base, defaultGlobal, tracing, log⟩ := context
  cases base <;> exact idle

theorem defaultGlobalScope : Peaceful Context.defaultGlobalScope := by
  refine .of_eq fun context idle => ⟨_, _, defaultGlobalScope_eq context, by simp, ?_⟩
  obtain ⟨store, base, defaultGlobal, tracing, log⟩ := context
  cases defaultGlobal <;> cases base <;> exact idle

theorem child (parent : Addr) : Peaceful (Context.child parent) := by
  have event : Peaceful (Context.childEvent parent) :=
    (ask fun _ idle => calm_depth idle parent).bind fun _ => .pure _
  have recorded : Peaceful (Context.recordOf (Context.childEvent parent)) := by
    refine .look fun context => ?_
    split
    · exact event.bind record
    · exact .pure _
  refine recorded.bind fun _ => onStore fun store idle => ?_
  exact .ok (store.newChild parent).2 idle _

theorem mapError_ne_conflict {outcome : Except Fault α} (calm : outcome ≠ .error .conflict) :
    outcome.mapError Failure.fault ≠ .error (.fault .conflict) := by
  cases outcome with
  | ok x => simp [Except.mapError]
  | error fault =>
      simp only [Except.mapError, ne_eq, Except.error.injEq, Failure.fault.injEq] at calm ⊢
      exact calm

theorem inPlace {work : ContextM α} (peaceful : Peaceful work) :
    Peaceful (Place.inContext work) :=
  .of_eq fun before idle =>
    ⟨_, _, Place.inContext_eq work before, mapError_ne_conflict (peaceful before.context idle).1,
      (peaceful before.context idle).2⟩

theorem inSession {work : ContextM α} (peaceful : Peaceful work) :
    Peaceful (Session.inContext work) :=
  .of_eq fun before idle =>
    ⟨_, _, Session.inContext_eq work before, mapError_ne_conflict (peaceful before.context idle).1,
      (peaceful before.context idle).2⟩

end Contexts

theorem atPath {name : String} {path : List Hop} {work : PlaceM Outcome}
    (peaceful : Peaceful (Place.follow path work)) :
    Peaceful (Session.atPath name path work) := by
  refine .of_eq fun session idle => ?_
  cases bound : session.named.get? name with
  | none =>
      exact ⟨_, _, Discipline.bind_of_error (Session.valueOf_of_unbound bound),
        by simp [Setting.conflict], idle⟩
  | some value =>
      exact ⟨_, _, Session.atPath_of_bound bound path work,
        peaceful { value, writable := true, context := session.context } idle⟩

end Peaceful

/-- Peace, which does not extend to arbitrary work in place. -/
def Habit.peace : Habit where
  Has := Peaceful
  lends := False
  enters := True
  pure := .pure
  throw := .throw
  bind := .bind
  look _ := .look
  update _ aside _ := .update fun state => congrArg Context.store (aside state)
  record _ := .record _
  baseScope := .baseScope
  defaultGlobalScope := .defaultGlobalScope
  ask := .ask
  onStore := .onStore
  child _ := .child
  inPlace := .inPlace
  visiting peaceful value writable := fun place idle =>
    peaceful { value, writable, context := place.context } idle
  item impossible := impossible.elim
  entry impossible := impossible.elim
  inSession := .inSession
  atPath := .atPath

/-- A step meets no conflict where nothing is lent out, unless it lends something out. -/
theorem Session.peaceful_perform {step : Step} (apart : step.worksInPlace = false) :
    Peaceful (perform step) :=
  Habit.peace.perform step (fun inPlace => by simp [apart] at inPlace) fun _ => trivial

end ScopedValues
