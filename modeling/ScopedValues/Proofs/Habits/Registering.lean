import ScopedValues.Proofs.Habits.Fidelity

/-!
Contract: which events work leaves on the record.

Owns the account that a record gives of the default scopes, and that it is complete.

Main statement: a step only adds to the record, and on the record it tells of each default scope
that it makes exactly once.

Does not own what is told about other scopes.
-/

set_option autoImplicit false

namespace ScopedValues

open Store

namespace Context

/-- How many of the default scopes that the event tells of have been made. -/
def made (context : Context) : Event → Nat
  | .baseCreated => context.base.toList.length
  | .defaultGlobalCreated => context.defaultGlobal.toList.length
  | _ => 0

theorem made_le_one (context : Context) (event : Event) : context.made event ≤ 1 := by
  cases event with
  | baseCreated => cases made : context.base <;> simp [Context.made, made]
  | defaultGlobalCreated => cases made : context.defaultGlobal <;> simp [Context.made, made]
  | _ => exact Nat.zero_le 1

/-- On the record, the events tell of each default scope that has been made in between. -/
structure Accounts (before : Context) (events : List Event) (after : Context) : Prop where
  tracing : after.tracing = before.tracing
  silent : before.tracing = false → events = []
  told : before.tracing = true → ∀ event, event.tellsOfDefault = true →
    before.made event + events.count event = after.made event

/-- What was recorded in between gives an account. -/
def Registers (before after : Context) : Prop :=
  ∃ events, after.log = before.log ++ events ∧ Accounts before events after

section Accounts

variable {before middle after : Context}

theorem Accounts.append {first second : List Event} (earlier : Accounts before first middle)
    (later : Accounts middle second after) : Accounts before (first ++ second) after where
  tracing := later.tracing.trans earlier.tracing
  silent off := by
    rw [earlier.silent off, later.silent (earlier.tracing.trans off)]
    rfl
  told on event tells := by
    rw [List.count_append, ← Nat.add_assoc, earlier.told on event tells,
      later.told (earlier.tracing.trans on) event tells]

/-- Where no default scope has been made, there is nothing to tell. -/
theorem Accounts.nil (tracing : after.tracing = before.tracing) (base : after.base = before.base)
    (defaultGlobal : after.defaultGlobal = before.defaultGlobal) : Accounts before [] after where
  tracing := tracing
  silent _ := rfl
  told _ event _ := by
    rw [List.count_nil, Nat.add_zero]
    cases event <;> simp only [made, base, defaultGlobal]

theorem Registers.trans (earlier : Registers before middle) (later : Registers middle after) :
    Registers before after := by
  obtain ⟨first, sofar, account⟩ := earlier
  obtain ⟨second, onward, further⟩ := later
  exact ⟨first ++ second, by rw [onward, sofar, List.append_assoc], account.append further⟩

/-- Nothing but storage is different. -/
theorem Registers.stored (context : Context) (store : Store) :
    Registers context { context with store } :=
  ⟨[], (List.append_nil _).symm, .nil rfl rfl rfl⟩

theorem Registers.refl (context : Context) : Registers context context :=
  .stored context context.store

/-- What is recorded of anything else changes no account. -/
theorem registers_logged {event : Event} (other : event.tellsOfDefault = false)
    (context : Context) : Registers context { context with log := context.logged event } := by
  obtain ⟨store, base, defaultGlobal, tracing, log⟩ := context
  cases tracing with
  | false => exact .refl _
  | true =>
      refine ⟨[event], rfl, rfl, by simp, fun _ teller tells => ?_⟩
      have different : event ≠ teller := fun same => by simp [← same, other] at tells
      rw [List.count_singleton, if_neg (by simpa using different)]
      rfl

theorem registers_withBase (context : Context) : Registers context context.withBase := by
  obtain ⟨store, base, defaultGlobal, tracing, log⟩ := context
  cases base with
  | some a => exact .refl _
  | none =>
      cases tracing with
      | false => exact ⟨[], (List.append_nil _).symm, rfl, fun _ => rfl, by simp⟩
      | true =>
          refine ⟨[.baseCreated], rfl, rfl, by simp, fun _ event _ => ?_⟩
          cases event <;> rfl

theorem registers_withDefault (context : Context) : Registers context context.withDefault := by
  obtain ⟨store, base, defaultGlobal, tracing, log⟩ := context
  cases defaultGlobal with
  | some a => exact .refl _
  | none =>
      cases tracing with
      | false =>
          cases base <;> exact ⟨[], (List.append_nil _).symm, rfl, fun _ => rfl, by simp⟩
      | true =>
          -- The base scope may have to be made on the way, which is then told in the second place.
          cases base with
          | some a =>
              refine ⟨[.defaultGlobalCreated], rfl, rfl, by simp, fun _ event _ => ?_⟩
              cases event <;> rfl
          | none =>
              refine ⟨[.defaultGlobalCreated, .baseCreated], ?_, rfl, by simp, fun _ event _ => ?_⟩
              · exact List.append_assoc log [.defaultGlobalCreated] [.baseCreated]
              · cases event <;> rfl

theorem registers_child (parent : Addr) (context : Context) :
    Registers context (child parent context).2 := by
  cases tracing : context.tracing with
  | false =>
      rw [child_of_silent parent tracing]
      exact .stored context _
  | true =>
      by_cases held : ∃ scope ∈ context.store.chain parent, scope ∈ context.store.lent
      · rw [child_of_held parent tracing held]
        exact .refl context
      · have recorded : context.logged (.childEntered (context.store.chain parent).length) =
            context.log ++ [.childEntered (context.store.chain parent).length] := by
          rw [logged, tracing, if_pos rfl]
        rw [child_of_free parent tracing held, ← recorded]
        exact (registers_logged rfl context).trans (.stored _ _)

end Accounts

end Context

/-! ## Work -/

/-- What the work records gives an account of the default scopes that it makes. -/
def Registering {σ ε α : Type} [Setting σ ε] (work : ExceptT ε (StateM σ) α) : Prop :=
  ∀ before : σ, (Setting.context before).Registers (Setting.context (work before).2)

namespace Registering

section General

variable {σ ε α β : Type} [Setting σ ε]

theorem of_eq {work : ExceptT ε (StateM σ) α}
    (each : ∀ before : σ, ∃ answer after, work before = (answer, after) ∧
      (Setting.context before).Registers (Setting.context after)) : Registering work := by
  intro before
  obtain ⟨answer, after, done, registers⟩ := each before
  rw [done]
  exact registers

theorem pure (x : α) : Registering (Pure.pure x : ExceptT ε (StateM σ) α) :=
  fun _ => .refl _

theorem throw (failure : ε) : Registering (throw failure : ExceptT ε (StateM σ) α) :=
  fun _ => .refl _

theorem bind {work : ExceptT ε (StateM σ) α} {next : α → ExceptT ε (StateM σ) β}
    (first : Registering work) (rest : ∀ x, Registering (next x)) :
    Registering (work >>= next) := by
  refine .of_eq fun before => ?_
  have registers := first before
  rcases done : work before with ⟨outcome, later⟩
  rw [done] at registers
  cases outcome with
  | error failure => exact ⟨_, _, Discipline.bind_of_error done, registers⟩
  | ok x => exact ⟨_, _, Discipline.bind_of_ok done, registers.trans (rest x later)⟩

theorem look {next : σ → ExceptT ε (StateM σ) β} (rest : ∀ state, Registering (next state)) :
    Registering (get >>= next) :=
  fun before => rest before before

theorem update {change : σ → σ}
    (aside : ∀ state : σ, Setting.context (change state) = Setting.context state) :
    Registering (modify change : ExceptT ε (StateM σ) PUnit) := by
  refine .of_eq fun before => ⟨.ok ⟨⟩, change before, rfl, ?_⟩
  rw [aside before]
  exact .refl _

end General

/-! ## Contexts -/

section Contexts

open Context

variable {α : Type}

theorem ask (question : Store → Except Fault α) : Registering (Context.ask question) :=
  .of_eq fun before => ⟨_, _, ask_eq question before, .refl before⟩

theorem onStore (work : Store → Except Fault (α × Store)) :
    Registering (Context.onStore work) := by
  refine .bind (ask work) fun answer => .bind ?_ fun _ => .pure answer.1
  exact fun context => .stored context answer.2

theorem record {event : Event} (other : event.tellsOfDefault = false) :
    Registering (Context.record event) :=
  .of_eq fun before => ⟨_, _, record_eq event before, registers_logged other before⟩

theorem baseScope : Registering Context.baseScope :=
  .of_eq fun before => ⟨_, _, baseScope_eq before, registers_withBase before⟩

theorem defaultGlobalScope : Registering Context.defaultGlobalScope :=
  .of_eq fun before => ⟨_, _, defaultGlobalScope_eq before, registers_withDefault before⟩

theorem inPlace {work : ContextM α} (registering : Registering work) :
    Registering (Place.inContext work) :=
  .of_eq fun place => ⟨_, _, Place.inContext_eq work place, registering place.context⟩

theorem inSession {work : ContextM α} (registering : Registering work) :
    Registering (Session.inContext work) :=
  .of_eq fun session => ⟨_, _, Session.inContext_eq work session, registering session.context⟩

end Contexts

/-! ## Places -/

section Places

open Place

variable {ρ : Type} {work : PlaceM ρ}

theorem visiting (registering : Registering work) (value : Value) (writable : Bool) :
    Registering (Place.visiting value writable work) :=
  fun place => registering { value, writable, context := place.context }

/-- Lending storage out and taking it back is not recorded. -/
theorem lending (registering : Registering work) (a : Addr) (value : Value)
    (putBack : Store → Value → Store) (context : Context) :
    context.Registers (Context.lending a value putBack (Place.lent work) context).2 := by
  have lent := Context.Registers.stored context (context.store.lend a)
  have worked := registering { value, writable := true, context := { context with
    store := context.store.lend a } }
  exact (lent.trans worked).trans (.stored _ _)

theorem changing {change : ContextM (Except Failure ρ)}
    (registers : ∀ context : Context, context.Registers (change context).2) :
    Registering (do Place.answered (← Place.inContext change) : PlaceM ρ) :=
  .of_eq fun place => ⟨_, _, answered_inContext change place, registers place.context⟩

theorem here : Registering here :=
  .look fun _ => .pure _

theorem item (registering : Registering work) (index : Index) :
    Registering (hop (.item index) work) := by
  have changed : ∀ a, Registering (do
      Place.answered (← Place.inContext (Context.withItem a index (Place.lent work))) :
        PlaceM ρ) := by
    refine fun a => .changing fun context => ?_
    cases found : context.store.item a index with
    | error fault =>
        rw [Context.withItem_of_fault found]
        exact .refl context
    | ok place =>
        obtain ⟨position, value⟩ := place
        rw [Context.withItem_of_found found]
        exact lending registering a value
          (fun store changed => store.setPosition a position changed) context
  refine .bind (.bind here fun value => ?_) changed
  cases value with
  | list a => exact .pure a
  | _ => exact .throw _

theorem entry (registering : Registering work) (key : String) :
    Registering (hop (.entry key) work) := by
  have changed : ∀ a, Registering (do
      Place.answered (← Place.inContext (Context.withEntry a key (Place.lent work))) :
        PlaceM ρ) := by
    refine fun a => .changing fun context => ?_
    cases found : context.store.entry a key with
    | error fault =>
        rw [Context.withEntry_of_fault found]
        exact .refl context
    | ok place =>
        obtain ⟨owner, value, store⟩ := place
        rw [Context.withEntry_of_found found]
        exact (Context.Registers.stored context store).trans
          (lending registering owner value
            (fun store changed => store.setEntry owner key changed) { context with store })
  refine .bind (.bind here fun value => ?_) changed
  cases value with
  | map a => exact .pure a
  | _ => exact .throw _

theorem atPath {name : String} {path : List Hop} {work : PlaceM Outcome}
    (registering : Registering (follow path work)) :
    Registering (Session.atPath name path work) := by
  refine .of_eq fun session => ?_
  cases bound : session.named.get? name with
  | none => exact ⟨_, _, Discipline.bind_of_error (Session.valueOf_of_unbound bound), .refl _⟩
  | some value =>
      exact ⟨_, _, Session.atPath_of_bound bound path work,
        registering { value, writable := true, context := session.context }⟩

end Places

end Registering

/-- Giving account, which extends to work in place and to entering scopes. -/
def Habit.registering : Habit where
  Has := Registering
  lends := True
  enters := True
  pure := .pure
  throw _ := .throw _
  bind := .bind
  look _ := .look
  update _ aside _ := .update aside
  record := .record
  baseScope := .baseScope
  defaultGlobalScope := .defaultGlobalScope
  ask _ := .ask _
  onStore _ := .onStore _
  child _ parent := Context.registers_child parent
  inPlace := .inPlace
  visiting := .visiting
  item _ _ _ := .item
  entry _ _ _ := .entry
  inSession := .inSession
  atPath := .atPath

/-- What a step records gives an account of the default scopes that it makes. -/
theorem Session.registering_perform (step : Step) : Registering (perform step) :=
  Habit.registering.perform step (fun _ => trivial) fun _ => trivial

end ScopedValues
