import ScopedValues.Proofs.Sessions.Contexts
import ScopedValues.Proofs.Storage.Calm
import ScopedValues.Session.Step

/-!
Contract: properties of work that carry over from the parts of a session to the whole.

Owns what contexts, places and sessions have in common, and habits: properties that work put
together has when its parts have them.

Does not own any particular habit, nor the work that has one.

A habit need not extend to work in place or to entering a scope; it says whether it does.
-/

set_option autoImplicit false

namespace ScopedValues

open Store

/-- What surrounds work on states of one kind. -/
class Setting (σ : Type) (ε : outParam Type) where
  context : σ → Context
  /-- The same state with nothing recorded and nothing to be recorded. -/
  silent : σ → σ
  /-- The failure to touch what is lent out. -/
  conflict : ε

/-- The storage of a state. -/
abbrev Setting.store {σ ε : Type} [Setting σ ε] (state : σ) : Store :=
  (Setting.context state).store

/-- Whether the event tells that a default scope was made. -/
def Event.tellsOfDefault : Event → Bool
  | .baseCreated => true
  | .defaultGlobalCreated => true
  | _ => false

namespace Context

/-- The same context with nothing recorded and nothing to be recorded. -/
def silent (context : Context) : Context :=
  { context with tracing := false, log := [] }

instance : Setting Context Fault where
  context := id
  silent := silent
  conflict := .conflict

end Context

namespace Place

def silent (place : Place) : Place :=
  { place with context := place.context.silent }

instance : Setting Place Failure where
  context := Place.context
  silent := silent
  conflict := .fault .conflict

end Place

namespace Session

def silent (session : Session) : Session :=
  { session with context := session.context.silent }

instance : Setting Session Failure where
  context := Session.context
  silent := silent
  conflict := .fault .conflict

end Session

/-! ## Habits -/

/-- A property of work that work put together has when its parts have it. -/
structure Habit where
  Has {σ ε α : Type} [Setting σ ε] (work : ExceptT ε (StateM σ) α) : Prop
  /-- Whether work on an element or an entry in place has it. -/
  lends : Prop
  /-- Whether entering a scope has it. -/
  enters : Prop
  pure {σ ε α : Type} [Setting σ ε] (x : α) : Has (Pure.pure x : ExceptT ε (StateM σ) α)
  throw {σ ε α : Type} [Setting σ ε] {failure : ε} (other : failure ≠ Setting.conflict σ) :
    Has (throw failure : ExceptT ε (StateM σ) α)
  bind {σ ε α β : Type} [Setting σ ε] {work : ExceptT ε (StateM σ) α}
    {next : α → ExceptT ε (StateM σ) β} (first : Has work) (rest : ∀ x, Has (next x)) :
    Has (work >>= next)
  /-- A look at the state that is not about whether anything is recorded. -/
  look {σ ε β : Type} [Setting σ ε] {next : σ → ExceptT ε (StateM σ) β}
    (blind : ∀ state : σ, next (Setting.silent state) = next state)
    (rest : ∀ state, Has (next state)) : Has (get >>= next)
  /-- A change beside the context, and the same change whether anything is recorded. -/
  update {σ ε : Type} [Setting σ ε] (change : σ → σ)
    (aside : ∀ state : σ, Setting.context (change state) = Setting.context state)
    (blind : ∀ state : σ, Setting.silent (change state) = change (Setting.silent state)) :
    Has (modify change : ExceptT ε (StateM σ) PUnit)
  record {event : Event} (other : event.tellsOfDefault = false) : Has (Context.record event)
  baseScope : Has Context.baseScope
  defaultGlobalScope : Has Context.defaultGlobalScope
  ask {α : Type} {question : Store → Except Fault α}
    (calm : ∀ store : Store, store.lent = [] → Calm (question store)) :
    Has (Context.ask question)
  onStore {α : Type} {work : Store → Except Fault (α × Store)}
    (quiet : ∀ store : Store, store.lent = [] → Undisturbed (work store)) :
    Has (Context.onStore work)
  child (entering : enters) (parent : Addr) : Has (Context.child parent)
  inPlace {α : Type} {work : ContextM α} (has : Has work) : Has (Place.inContext work)
  visiting {ρ : Type} {work : PlaceM ρ} (has : Has work) (value : Value) (writable : Bool) :
    Has (Place.visiting value writable work)
  item (lending : lends) {ρ : Type} {work : PlaceM ρ} (has : Has work) (index : Index) :
    Has (Place.hop (.item index) work)
  entry (lending : lends) {ρ : Type} {work : PlaceM ρ} (has : Has work) (key : String) :
    Has (Place.hop (.entry key) work)
  inSession {α : Type} {work : ContextM α} (has : Has work) : Has (Session.inContext work)
  atPath {name : String} {path : List Hop} {work : PlaceM Outcome}
    (has : Has (Place.follow path work)) : Has (Session.atPath name path work)

namespace Habit

variable (habit : Habit)

section General

variable {σ ε α β : Type} [Setting σ ε]

theorem mapM {work : α → ExceptT ε (StateM σ) β} {items : List α}
    (each : ∀ x ∈ items, habit.Has (work x)) : habit.Has (items.mapM work) :=
  mapM_closed habit.Has habit.pure habit.bind each

theorem forM {work : α → ExceptT ε (StateM σ) PUnit} {items : List α}
    (each : ∀ x ∈ items, habit.Has (work x)) : habit.Has (items.forM work) := by
  induction items with
  | nil => exact habit.pure _
  | cons x rest inductionHypothesis =>
      rw [List.forall_mem_cons] at each
      exact habit.bind each.1 fun _ => inductionHypothesis each.2

theorem mapOption {work : α → ExceptT ε (StateM σ) β} {found : Option α}
    (each : ∀ x, habit.Has (work x)) : habit.Has (found.mapM work) := by
  cases found with
  | none => exact habit.pure none
  | some x => exact habit.bind (each x) fun _ => habit.pure _

end General

/-! ## Contexts -/

section Contexts

open Context

theorem change {work : Store → Except Fault Store}
    (quiet : ∀ store : Store, store.lent = [] →
      Undisturbed (return ((), ← work store) : Except Fault (Unit × Store))) :
    habit.Has (Context.change work) := by
  have same : Context.change work =
      Context.onStore fun store => return ((), ← work store) := by
    funext context
    cases worked : work context.store with
    | error fault =>
        have asked : Context.ask work context = (.error fault, context) := by
          rw [ask_eq, worked]
        have askedToo : Context.ask (fun store => return ((), ← work store) : Store →
            Except Fault (Unit × Store)) context = (.error fault, context) := by
          rw [ask_eq, worked]
          rfl
        exact (Discipline.bind_of_error asked).trans (Discipline.bind_of_error askedToo).symm
    | ok store =>
        refine (change_eq_ok worked).trans (onStore_eq_ok ?_).symm
        rw [worked]
        rfl
  rw [same]
  exact habit.onStore quiet

end Contexts

end Habit

end ScopedValues
