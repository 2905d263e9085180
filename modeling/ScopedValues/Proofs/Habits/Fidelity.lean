import ScopedValues.Proofs.Habits.Steps
import ScopedValues.Proofs.Sessions.Defaults
import ScopedValues.Proofs.Sessions.Steps

/-!
Contract: work that comes to the same whether or not it is recorded.

Owns fidelity: with and without a record, work answers the same and leaves the same state.

Main statement: every step is faithful, unless it enters a scope and meets a conflict while it
is recorded.
-/

set_option autoImplicit false

namespace ScopedValues

open Store

/-! ## Entering a scope -/

namespace Store

variable {store : Store}

theorem walk_of_held {scopes : List Addr} (held : ∃ scope ∈ scopes, scope ∈ store.lent) :
    store.walk scopes = .error .conflict := by
  induction scopes with
  | nil => simp at held
  | cons scope outer inductionHypothesis =>
      rw [walk]
      by_cases here : scope ∈ store.lent
      · rw [free, if_pos (by simpa using here)]
        rfl
      · rw [(free_eq_ok_iff store scope).mpr here]
        rw [List.exists_mem_cons_iff] at held
        exact inductionHypothesis (held.resolve_left here)

theorem walk_of_free {scopes : List Addr} (free : ¬ ∃ scope ∈ scopes, scope ∈ store.lent) :
    store.walk scopes = .ok () := by
  induction scopes with
  | nil => rfl
  | cons scope outer inductionHypothesis =>
      rw [List.exists_mem_cons_iff, not_or] at free
      rw [walk, (free_eq_ok_iff store scope).mpr free.1]
      exact inductionHypothesis free.2

end Store

namespace Context

variable {context : Context}

/-- Nobody asks for the depth of a scope that is entered without a record. -/
theorem child_of_silent (parent : Addr) (silent : context.tracing = false) :
    child parent context =
      (.ok context.store.size, { context with store := (context.store.newChild parent).2 }) := by
  have skipped : recordOf (childEvent parent) context = (.ok (), context) := by
    refine (Discipline.bind_get _ context).trans ?_
    rw [silent]
    rfl
  exact (Discipline.bind_of_ok skipped).trans (onStore_eq_ok rfl)

theorem child_of_held (parent : Addr) (tracing : context.tracing = true)
    (held : ∃ scope ∈ context.store.chain parent, scope ∈ context.store.lent) :
    child parent context = (.error .conflict, context) := by
  have asked : ask (·.depth parent) context = (.error .conflict, context) := by
    rw [ask_eq, depth, enclosing, walk_of_held held]
    rfl
  have recorded : recordOf (childEvent parent) context = (.error .conflict, context) := by
    refine (Discipline.bind_get _ context).trans ?_
    rw [tracing, if_pos rfl]
    exact Discipline.bind_of_error (Discipline.bind_of_error asked)
  exact Discipline.bind_of_error recorded

theorem child_of_free (parent : Addr) (tracing : context.tracing = true)
    (free : ¬ ∃ scope ∈ context.store.chain parent, scope ∈ context.store.lent) :
    child parent context =
      (.ok context.store.size, { context with
        store := (context.store.newChild parent).2
        log := context.log ++ [.childEntered (context.store.chain parent).length] }) := by
  have asked : ask (·.depth parent) context =
      (.ok (context.store.chain parent).length, context) := by
    rw [ask_eq, depth, enclosing, walk_of_free free]
    rfl
  have event : childEvent parent context =
      (.ok (.childEntered (context.store.chain parent).length), context) :=
    Discipline.bind_of_ok asked
  have recorded : recordOf (childEvent parent) context =
      (.ok (), { context with
        log := context.log ++ [.childEntered (context.store.chain parent).length] }) := by
    refine (Discipline.bind_get _ context).trans ?_
    rw [tracing, if_pos rfl]
    refine (Discipline.bind_of_ok event).trans ((record_eq _ context).trans ?_)
    rw [logged, tracing, if_pos rfl]
  exact (Discipline.bind_of_ok recorded).trans (onStore_eq_ok rfl)

/-- Entering a scope stops exactly if it is recorded and some scope of the chain is held. -/
theorem child_eq_conflict_iff (parent : Addr) :
    (child parent context).1 = .error .conflict ↔
      context.tracing = true ∧
        ∃ scope ∈ context.store.chain parent, scope ∈ context.store.lent := by
  cases tracing : context.tracing with
  | false => simp [child_of_silent parent tracing]
  | true =>
      by_cases held : ∃ scope ∈ context.store.chain parent, scope ∈ context.store.lent
      · simp [child_of_held parent tracing held, held]
      · simp [child_of_free parent tracing held, held]

end Context

/-! ## In place -/

namespace Place

variable {ρ : Type}

/-- What a change in place answers, whether it is the change that fails or the work in it. -/
def joined : Except Fault (Except Failure ρ) → Except Failure ρ
  | .ok answer => answer
  | .error fault => .error (.fault fault)

theorem answered_inContext (change : ContextM (Except Failure ρ)) (place : Place) :
    (do Place.answered (← inContext change) : PlaceM ρ) place =
      (joined (change place.context).1, { place with context := (change place.context).2 }) := by
  have done := inContext_eq change place
  rcases outcome : change place.context with ⟨answer | fault, context⟩
  · rw [outcome] at done
    exact Discipline.bind_of_error done
  · rw [outcome] at done
    refine (Discipline.bind_of_ok done).trans ?_
    cases fault <;> rfl

end Place

/-! ## Fidelity -/

/-- Without a record the work answers the same and leaves the same state. It may be excused
from that if it meets a conflict. -/
def Faithful (excused : Prop) {σ ε α : Type} [Setting σ ε] (work : ExceptT ε (StateM σ) α) :
    Prop :=
  ∀ before : σ, excused ∧ (work before).1 = .error (Setting.conflict σ) ∨
    work (Setting.silent before) = ((work before).1, Setting.silent (work before).2)

namespace Faithful

variable {excused : Prop}

section General

variable {σ ε α β : Type} [Setting σ ε]

theorem of_eq {work : ExceptT ε (StateM σ) α}
    (each : ∀ before : σ, ∃ answer after, work before = (answer, after) ∧
      (excused ∧ answer = .error (Setting.conflict σ) ∨
        work (Setting.silent before) = (answer, Setting.silent after))) :
    Faithful excused work := by
  intro before
  obtain ⟨answer, after, done, faithful⟩ := each before
  rw [done]
  exact faithful

theorem pure (x : α) : Faithful excused (Pure.pure x : ExceptT ε (StateM σ) α) :=
  fun _ => .inr rfl

theorem throw (failure : ε) : Faithful excused (throw failure : ExceptT ε (StateM σ) α) :=
  fun _ => .inr rfl

theorem bind {work : ExceptT ε (StateM σ) α} {next : α → ExceptT ε (StateM σ) β}
    (first : Faithful excused work) (rest : ∀ x, Faithful excused (next x)) :
    Faithful excused (work >>= next) := by
  refine .of_eq fun before => ?_
  have faithful := first before
  rcases done : work before with ⟨outcome, later⟩
  rw [done] at faithful
  cases outcome with
  | error failure =>
      refine ⟨.error failure, later, Discipline.bind_of_error done, ?_⟩
      rcases faithful with ⟨excuse, failed⟩ | same
      · cases failed
        exact .inl ⟨excuse, rfl⟩
      · exact .inr (Discipline.bind_of_error same)
  | ok x =>
      -- What has succeeded met no conflict, so only the rest can still need the excuse.
      have same := faithful.resolve_left fun conflict => by simpa using conflict.2
      refine ⟨_, _, Discipline.bind_of_ok done, (rest x later).imp_right fun onward => ?_⟩
      exact (Discipline.bind_of_ok same).trans onward

theorem look {next : σ → ExceptT ε (StateM σ) β}
    (blind : ∀ state : σ, next (Setting.silent state) = next state)
    (rest : ∀ state, Faithful excused (next state)) : Faithful excused (get >>= next) := by
  intro before
  refine (rest before before).imp_right fun same => ?_
  exact (congrFun (blind before) (Setting.silent before)).trans same

theorem update {change : σ → σ}
    (blind : ∀ state : σ, Setting.silent (change state) = change (Setting.silent state)) :
    Faithful excused (modify change : ExceptT ε (StateM σ) PUnit) := by
  refine .of_eq fun before => ⟨.ok ⟨⟩, change before, rfl, .inr ?_⟩
  rw [blind before]
  rfl

end General

/-! ## Contexts -/

section Contexts

open Context

variable {α : Type}

theorem ask (question : Store → Except Fault α) : Faithful excused (Context.ask question) :=
  .of_eq fun before => ⟨_, _, ask_eq question before, .inr (ask_eq question before.silent)⟩

theorem onStore (work : Store → Except Fault (α × Store)) :
    Faithful excused (Context.onStore work) := by
  refine .bind (ask work) fun answer => ?_
  exact .bind (.update fun _ => rfl) fun _ => .pure answer.1

theorem record (event : Event) : Faithful excused (Context.record event) := by
  refine .update fun context => ?_
  obtain ⟨store, base, defaultGlobal, tracing, log⟩ := context
  cases tracing <;> rfl

theorem baseScope : Faithful excused Context.baseScope := by
  refine .of_eq fun context => ⟨_, _, baseScope_eq context, .inr ?_⟩
  refine (baseScope_eq context.silent).trans ?_
  obtain ⟨store, base, defaultGlobal, tracing, log⟩ := context
  cases base <;> rfl

theorem defaultGlobalScope : Faithful excused Context.defaultGlobalScope := by
  refine .of_eq fun context => ⟨_, _, defaultGlobalScope_eq context, .inr ?_⟩
  refine (defaultGlobalScope_eq context.silent).trans ?_
  obtain ⟨store, base, defaultGlobal, tracing, log⟩ := context
  cases defaultGlobal <;> cases base <;> rfl

/-- Entering a scope is faithful but for the conflict that telling its depth can meet. -/
theorem child (excuse : excused) (parent : Addr) : Faithful excused (Context.child parent) := by
  refine .of_eq fun context => ?_
  have silent : Context.child parent context.silent = _ := child_of_silent parent rfl
  cases tracing : context.tracing with
  | false => exact ⟨_, _, child_of_silent parent tracing, .inr silent⟩
  | true =>
      by_cases held : ∃ scope ∈ context.store.chain parent, scope ∈ context.store.lent
      · exact ⟨_, _, child_of_held parent tracing held, .inl ⟨excuse, rfl⟩⟩
      · exact ⟨_, _, child_of_free parent tracing held, .inr silent⟩

theorem inPlace {work : ContextM α} (faithful : Faithful excused work) :
    Faithful excused (Place.inContext work) := by
  refine .of_eq fun place => ⟨_, _, Place.inContext_eq work place, ?_⟩
  refine (faithful place.context).imp (fun conflict => ?_) fun same => ?_
  · exact ⟨conflict.1, congrArg (Except.mapError Failure.fault) conflict.2⟩
  · have silent : work (Setting.silent place).context = _ := same
    rw [Place.inContext_eq, silent]
    rfl

theorem inSession {work : ContextM α} (faithful : Faithful excused work) :
    Faithful excused (Session.inContext work) := by
  refine .of_eq fun session => ⟨_, _, Session.inContext_eq work session, ?_⟩
  refine (faithful session.context).imp (fun conflict => ?_) fun same => ?_
  · exact ⟨conflict.1, congrArg (Except.mapError Failure.fault) conflict.2⟩
  · have silent : work (Setting.silent session).context = _ := same
    rw [Session.inContext_eq, silent]
    rfl

end Contexts

/-! ## Places -/

section Places

open Place

variable {ρ : Type} {work : PlaceM ρ}

theorem visiting (faithful : Faithful excused work) (value : Value) (writable : Bool) :
    Faithful excused (Place.visiting value writable work) := by
  intro place
  refine (faithful { value, writable, context := place.context }).imp id fun same => ?_
  exact congrArg (fun outcome : Except Failure ρ × Place =>
    (outcome.1, { (Setting.silent place : Place) with context := outcome.2.context })) same

/-- What faithful work in place leaves is the same, with or without a record, also when its
value has been put back. -/
theorem lending (faithful : Faithful excused work) (a : Addr) (value : Value)
    (putBack : Store → Value → Store) (context : Context) :
    excused ∧ (Except.ok (Context.lending a value putBack (Place.lent work) context).1 :
        Except Fault (Except Failure ρ)) = .ok (.error (.fault .conflict)) ∨
      ((.ok (Context.lending a value putBack (Place.lent work) context.silent).1,
        (Context.lending a value putBack (Place.lent work) context.silent).2) :
          Except Fault (Except Failure ρ) × Context) =
        (.ok (Context.lending a value putBack (Place.lent work) context).1,
          (Context.lending a value putBack (Place.lent work) context).2.silent) := by
  refine (faithful { value, writable := true, context := { context with
    store := context.store.lend a } }).imp (fun conflict => ?_) fun same => ?_
  · exact ⟨conflict.1, congrArg Except.ok conflict.2⟩
  · exact congrArg (fun outcome : Except Failure ρ × Place =>
      ((.ok outcome.1 : Except Fault (Except Failure ρ)), { outcome.2.context with
        store := putBack outcome.2.context.store.regain outcome.2.value })) same

/-- A change in place is faithful at a place if it is so in the context of the place. -/
theorem changing {change : ContextM (Except Failure ρ)}
    (faithful : ∀ context : Context,
      excused ∧ (change context).1 = .ok (.error (.fault .conflict)) ∨
        change context.silent = ((change context).1, (change context).2.silent)) :
    Faithful excused (do Place.answered (← Place.inContext change) : PlaceM ρ) := by
  refine .of_eq fun place => ⟨_, _, answered_inContext change place, ?_⟩
  refine (faithful place.context).imp (fun conflict => ?_) fun same => ?_
  · exact ⟨conflict.1, by rw [conflict.2]; rfl⟩
  · have silent : change (Setting.silent place).context = _ := same
    rw [answered_inContext, silent]
    rfl

theorem here : Faithful excused here :=
  .look (fun _ => rfl) fun _ => .pure _

theorem item (faithful : Faithful excused work) (index : Index) :
    Faithful excused (hop (.item index) work) := by
  have changed : ∀ a, Faithful excused (do
      Place.answered (← Place.inContext (Context.withItem a index (Place.lent work))) :
        PlaceM ρ) := by
    refine fun a => .changing fun context => ?_
    cases found : context.store.item a index with
    | error fault =>
        have silent : context.silent.store.item a index = .error fault := found
        rw [Context.withItem_of_fault found, Context.withItem_of_fault silent]
        exact .inr rfl
    | ok place =>
        obtain ⟨position, value⟩ := place
        have silent : context.silent.store.item a index = .ok (position, value) := found
        rw [Context.withItem_of_found found, Context.withItem_of_found silent]
        exact lending faithful a value _ context
  refine .bind (.bind here fun value => ?_) changed
  cases value with
  | list a => exact .pure a
  | _ => exact .throw _

theorem entry (faithful : Faithful excused work) (key : String) :
    Faithful excused (hop (.entry key) work) := by
  have changed : ∀ a, Faithful excused (do
      Place.answered (← Place.inContext (Context.withEntry a key (Place.lent work))) :
        PlaceM ρ) := by
    refine fun a => .changing fun context => ?_
    cases found : context.store.entry a key with
    | error fault =>
        have silent : context.silent.store.entry a key = .error fault := found
        rw [Context.withEntry_of_fault found, Context.withEntry_of_fault silent]
        exact .inr rfl
    | ok place =>
        obtain ⟨owner, value, store⟩ := place
        have silent : context.silent.store.entry a key = .ok (owner, value, store) := found
        rw [Context.withEntry_of_found found, Context.withEntry_of_found silent]
        exact lending faithful owner value _ { context with store }
  refine .bind (.bind here fun value => ?_) changed
  cases value with
  | map a => exact .pure a
  | _ => exact .throw _

theorem atPath {name : String} {path : List Hop} {work : PlaceM Outcome}
    (faithful : Faithful excused (follow path work)) :
    Faithful excused (Session.atPath name path work) := by
  refine .of_eq fun session => ?_
  cases bound : session.named.get? name with
  | none =>
      have silent : session.silent.named.get? name = none := bound
      exact ⟨_, _, Discipline.bind_of_error (Session.valueOf_of_unbound bound),
        .inr (Discipline.bind_of_error (Session.valueOf_of_unbound silent))⟩
  | some value =>
      have silent : session.silent.named.get? name = some value := bound
      refine ⟨_, _, Session.atPath_of_bound bound path work, ?_⟩
      refine (faithful { value, writable := true, context := session.context }).imp id
        fun same => (Session.atPath_of_bound silent path work).trans ?_
      exact congrArg (fun outcome : Except Failure Outcome × Place =>
        (outcome.1, { session with
          context := outcome.2.context
          named := session.named.insert name outcome.2.value })) same

end Places

end Faithful

/-- Fidelity, which extends to entering scopes where a conflict is excused. -/
def Habit.fidelity (excused : Prop) : Habit where
  Has := Faithful excused
  lends := True
  enters := excused
  pure := .pure
  throw _ := .throw _
  bind := .bind
  look := .look
  update _ _ := .update
  record _ := .record _
  baseScope := .baseScope
  defaultGlobalScope := .defaultGlobalScope
  ask _ := .ask _
  onStore _ := .onStore _
  child := .child
  inPlace := .inPlace
  visiting := .visiting
  item _ _ _ := .item
  entry _ _ _ := .entry
  inSession := .inSession
  atPath := .atPath

/-- A step is faithful, unless it enters a scope and meets a conflict. -/
theorem Session.faithful_perform (step : Step) :
    Faithful (step.entersScope = true) (perform step) :=
  (Habit.fidelity _).perform step (fun _ => trivial) id

end ScopedValues
