import ScopedValues.Proofs.Habits.Registering
import ScopedValues.Proofs.Sessions.Turns

/-!
Contract: what is answered when default scopes and scopes inside them are asked for.

Owns the requests, the runs in which they are made, and what all answers of a run have in common.

Main statement: in whatever order they are made, requests for the base scope find the same root
and requests for the default one the same scope inside it, each of which is made and told of at
most once; and every new scope is fresh, empty and inside one of them.

Requests can be made at any moment of a run, also from within changes in place.
-/

set_option autoImplicit false

namespace ScopedValues

open Store

/-! ## Requests -/

/-- A request for a default scope, or for a new scope inside one. -/
inductive Request where
  | base
  | defaultGlobal
  /-- An empty scope inside the base scope. -/
  | new
  /-- A top-level scope of its own, inside the default one. -/
  | global

namespace Request

def run : Request → ContextM Addr
  | .base => Context.baseScope
  | .defaultGlobal => Context.defaultGlobalScope
  | .new => Context.newScope
  | .global => Context.globalScope

/-- The expression that makes the same request within a step. -/
def expr : Request → ScopeExpr
  | .base => .base
  | .defaultGlobal => .defaultGlobal
  | .new => .inBase
  | .global => .global

/-- What a request does to a session is what a step does that keeps nothing. -/
theorem perform_scope (request : Request) (session : Session) :
    (Session.perform (.scope request.expr { quiet := true }) session).2 =
      { session with context := (request.run session.context).2 } := by
  have evaluated : Session.evalScope request.expr session =
      ((request.run session.context).1.mapError Failure.fault,
        { session with context := (request.run session.context).2 }) := by
    have same : Session.evalScope request.expr = Session.inContext request.run := by
      cases request <;> rfl
    rw [same, Session.inContext_eq]
  rcases outcome : (request.run session.context).1 with fault | a
  · rw [outcome] at evaluated
    exact congrArg Prod.snd (Discipline.bind_of_error evaluated)
  · rw [outcome] at evaluated
    exact congrArg Prod.snd (Discipline.bind_of_ok evaluated)

end Request

namespace Store

/-- The scope at `a` is right inside the one at `parent`. -/
def Inside (store : Store) (a parent : Addr) : Prop :=
  store.IsScope a ∧ (store.scope a).parent = some parent

theorem Inside.retain {before after : Store} {a parent : Addr} (inside : before.Inside a parent)
    (retains : before.Retains after) : after.Inside a parent :=
  ⟨retains.scopes a inside.1, (retains.parents a inside.1).trans inside.2⟩

end Store

/-- A request and the context in which it is made. -/
structure Asking where
  request : Request
  before : Context

namespace Asking

def answer (asking : Asking) : Except Fault Addr :=
  (asking.request.run asking.before).1

def after (asking : Asking) : Context :=
  (asking.request.run asking.before).2

/-- The request makes an empty scope at `a`, where nothing was before. -/
structure Makes (asking : Asking) (a parent : Addr) : Prop where
  answer : asking.answer = .ok a
  fresh : asking.before.store.size ≤ a
  empty : asking.after.store.payloads[a]? = some (.scope ⟨Table.empty, some parent⟩)

/-- The depth of a new scope is to be recorded, but a scope around it is held. -/
structure Stopped (asking : Asking) (parent : Addr) : Prop where
  answer : asking.answer = .error .conflict
  tracing : asking.before.tracing = true
  held : ∃ scope ∈ asking.after.store.chain parent, scope ∈ asking.after.store.lent

/-- The answer to a request, as it stands in a later context. -/
def Answered (now : Context) (asking : Asking) : Prop :=
  match asking.request with
  | .base => ∃ root, asking.answer = .ok root ∧ now.base = some root
  | .defaultGlobal => ∃ own, asking.answer = .ok own ∧ now.defaultGlobal = some own
  | .new => ∃ a root, asking.Makes a root ∧ now.base = some root ∧ now.store.Inside a root
  | .global => ∃ own, now.defaultGlobal = some own ∧
      (asking.Stopped own ∨ ∃ a, asking.Makes a own ∧ now.store.Inside a own)

/-- The scope that a request makes, if it is one for a new scope and is not stopped. -/
def made? (asking : Asking) : Option Addr :=
  match asking.request with
  | .base => none
  | .defaultGlobal => none
  | .new => asking.answer.toOption
  | .global => asking.answer.toOption

end Asking

/-! ## Runs -/

/-- What is recorded in between. -/
def Context.recorded (before after : Context) : List Event :=
  after.log.drop before.log.length

/-- The runs that begin with nothing, with the requests that are made and all that is recorded. -/
inductive Asked (tracing : Bool) : Moment → List Asking → List Event → Prop where
  | start : Asked tracing ⟨Session.start tracing, []⟩ [] []
  | turn {before after : Moment} {askings : List Asking} {events : List Event}
      (sofar : Asked tracing before askings events)
      (turn : Moment.Turn (fun _ => True) before after) :
      Asked tracing after askings
        (events ++ before.session.context.recorded after.session.context)
  | request {session : Session} {frames : List Frame} {askings : List Asking}
      {events : List Event} (sofar : Asked tracing ⟨session, frames⟩ askings events)
      (request : Request) :
      Asked tracing
        ⟨{ session with context := Asking.after ⟨request, session.context⟩ }, frames⟩
        (askings ++ [⟨request, session.context⟩])
        (events ++ session.context.recorded (Asking.after ⟨request, session.context⟩))

/-! ## What stays over a turn -/

section Turns

variable {permitted : Step → Prop} {before after : Moment}

/-- A request is a turn of the session. -/
theorem Moment.turn_request (session : Session) (frames : List Frame) (request : Request) :
    Moment.Turn (fun _ => True) ⟨session, frames⟩
      ⟨{ session with context := Asking.after ⟨request, session.context⟩ }, frames⟩ := by
  have turn := @Moment.Turn.step (fun _ => True) session frames
    (.scope request.expr { quiet := true }) trivial
  rw [request.perform_scope] at turn
  exact turn

theorem Context.Registers.accounts {before after : Context} (registers : before.Registers after) :
    before.Accounts (before.recorded after) after := by
  obtain ⟨events, log, account⟩ := registers
  rw [recorded, log, List.drop_left]
  exact account

/-- What a turn records gives an account of the default scopes that are made in it. -/
theorem Moment.Turn.accounts (turn : Moment.Turn permitted before after) :
    before.session.context.Accounts
      (before.session.context.recorded after.session.context) after.session.context := by
  cases turn with
  | @step session frames step _ => exact (Session.registering_perform step session).accounts
  | clearLog session frames =>
      have nothing : session.context.recorded session.clearLog.context = [] := List.drop_nil
      show session.context.Accounts (session.context.recorded session.clearLog.context) _
      rw [nothing]
      exact .nil rfl rfl rfl
  | @enterItem session _ _ a => exact (Context.Registers.stored session.context _).accounts
  | @enterEntry session => exact (Context.Registers.stored session.context _).accounts
  | leave session frame frames => exact (Context.Registers.stored session.context _).accounts

/-- Storage has developed, and the default scopes that were made are the same. -/
structure Context.Persists (before after : Context) : Prop where
  retains : before.store.Retains after.store
  base : ∀ root, before.base = some root → after.base = some root
  defaultGlobal : ∀ own, before.defaultGlobal = some own → after.defaultGlobal = some own

theorem Moment.Turn.persists (turn : Moment.Turn permitted before after)
    (reached : before.Reached) :
    before.session.context.Persists after.session.context := by
  have retains := turn.retains reached
  have stands := Session.Reached.stands reached
  cases turn with
  | @step session frames step _ =>
      have grows := (Session.steady_perform step stands.sound).grows
      exact ⟨retains, grows.base, grows.defaultGlobal⟩
  | _ => exact ⟨retains, fun _ same => same, fun _ same => same⟩

end Turns

/-! ## Answers -/

section Answers

open Context

theorem Context.size_le_withBase (context : Context) :
    context.store.size ≤ context.withBase.store.size := by
  obtain ⟨store, base, defaultGlobal, tracing, log⟩ := context
  cases base with
  | some a => exact Nat.le_refl _
  | none => exact (grows_allocate store _).size

theorem Context.size_le_withDefault (context : Context) :
    context.store.size ≤ context.withDefault.store.size := by
  rw [withDefault]
  cases context.defaultGlobal with
  | some a => exact Nat.le_refl _
  | none =>
      have asked : context.store.size ≤ context.beforeDefault.store.size :=
        size_le_withBase { context with log := context.logged .defaultGlobalCreated }
      exact Nat.le_trans asked (grows_allocate context.beforeDefault.store _).size

/-- Entering a scope is stopped by a scope that is held, or adds a scope to storage. -/
theorem Context.child_cases (parent : Addr) (context : Context) :
    (child parent context = (.error .conflict, context) ∧ context.tracing = true ∧
        ∃ scope ∈ context.store.chain parent, scope ∈ context.store.lent) ∨
      ∃ log, child parent context = (.ok context.store.size, { context with
        store := (context.store.newChild parent).2
        log }) := by
  cases tracing : context.tracing with
  | false => exact .inr ⟨context.log, by rw [child_of_silent parent tracing, tracing]⟩
  | true =>
      by_cases held : ∃ scope ∈ context.store.chain parent, scope ∈ context.store.lent
      · exact .inl ⟨child_of_held parent tracing held, rfl, held⟩
      · exact .inr ⟨_, by rw [child_of_free parent tracing held, tracing]⟩

namespace Asking

variable {asking : Asking} {a parent : Addr} {now later : Context}

theorem Makes.inside (makes : asking.Makes a parent) : asking.after.store.Inside a parent :=
  ⟨⟨_, makes.empty⟩, congrArg Scope.parent (scope_of_payload makes.empty)⟩

theorem makes_new (context : Context) :
    Makes ⟨.new, context⟩ context.withBase.store.size context.baseAddr where
  answer := congrArg Prod.fst (newScope_eq context)
  fresh := size_le_withBase context
  empty := by
    have done : after ⟨.new, context⟩ = _ := congrArg Prod.snd (newScope_eq context)
    rw [done]
    exact payload_allocate_self _ _

theorem answered_new (context : Context) :
    Answered (after ⟨.new, context⟩) ⟨.new, context⟩ := by
  have done : after ⟨.new, context⟩ = _ := congrArg Prod.snd (newScope_eq context)
  refine ⟨_, _, makes_new context, ?_, (makes_new context).inside⟩
  rw [done]
  exact base_withBase context

theorem answered_global (context : Context) :
    Answered (after ⟨.global, context⟩) ⟨.global, context⟩ := by
  have asked : Context.globalScope context = _ := globalScope_eq context
  refine ⟨context.defaultAddr, ?_⟩
  rcases child_cases context.defaultAddr context.withDefault with ⟨stopped, tracing, held⟩ | made
  · rw [stopped] at asked
    have answer : answer ⟨.global, context⟩ = _ := congrArg Prod.fst asked
    have after : after ⟨.global, context⟩ = _ := congrArg Prod.snd asked
    obtain ⟨_, _, account⟩ := registers_withDefault context
    refine ⟨?_, .inl ⟨answer, account.tracing.symm.trans tracing, ?_⟩⟩
    · rw [after]
      exact default_withDefault context
    · rw [after]
      exact held
  · obtain ⟨log, made⟩ := made
    rw [made] at asked
    have after : after ⟨.global, context⟩ = _ := congrArg Prod.snd asked
    have makes : Makes ⟨.global, context⟩ context.withDefault.store.size context.defaultAddr := {
      answer := congrArg Prod.fst asked
      fresh := size_le_withDefault context
      empty := by
        rw [after]
        exact payload_allocate_self _ _ }
    refine ⟨?_, .inr ⟨_, makes, makes.inside⟩⟩
    rw [after]
    exact default_withDefault context

/-- Every request is answered as it should be. -/
theorem answered (asking : Asking) : Answered asking.after asking := by
  obtain ⟨request, context⟩ := asking
  cases request with
  | base =>
      have done : Context.baseScope context = _ := baseScope_eq context
      refine ⟨context.baseAddr, congrArg Prod.fst done, ?_⟩
      exact (congrArg (fun outcome => outcome.2.base) done).trans (base_withBase context)
  | defaultGlobal =>
      have done : Context.defaultGlobalScope context = _ := defaultGlobalScope_eq context
      refine ⟨context.defaultAddr, congrArg Prod.fst done, ?_⟩
      exact (congrArg (fun outcome => outcome.2.defaultGlobal) done).trans
        (default_withDefault context)
  | new => exact answered_new context
  | global => exact answered_global context

/-- An answer stands for ever. -/
theorem Answered.persist (answered : Answered now asking) (persists : now.Persists later) :
    Answered later asking := by
  obtain ⟨request, context⟩ := asking
  cases request with
  | base =>
      obtain ⟨root, answer, base⟩ := answered
      exact ⟨root, answer, persists.base root base⟩
  | defaultGlobal =>
      obtain ⟨own, answer, made⟩ := answered
      exact ⟨own, answer, persists.defaultGlobal own made⟩
  | new =>
      obtain ⟨a, root, makes, base, inside⟩ := answered
      exact ⟨a, root, makes, persists.base root base, inside.retain persists.retains⟩
  | global =>
      obtain ⟨own, made, outcome⟩ := answered
      refine ⟨own, persists.defaultGlobal own made, outcome.imp_right ?_⟩
      rintro ⟨a, makes, inside⟩
      exact ⟨a, makes, inside.retain persists.retains⟩

/-- What a request makes is new. -/
theorem made?_bounds (asking : Asking) (makes : asking.made? = some a) :
    asking.before.store.size ≤ a ∧ a < asking.after.store.size := by
  have fits : ∀ {b parent : Addr}, asking.Makes b parent → asking.answer.toOption = some a →
      asking.before.store.size ≤ a ∧ a < asking.after.store.size := by
    intro b parent made answered
    rw [made.answer] at answered
    cases answered
    exact ⟨made.fresh, made.inside.1.lt_size⟩
  have answered := asking.answered
  obtain ⟨request, context⟩ := asking
  cases request with
  | base => cases makes
  | defaultGlobal => cases makes
  | new =>
      obtain ⟨b, root, made, _⟩ := answered
      exact fits made makes
  | global =>
      obtain ⟨own, _, stopped | ⟨b, made, _⟩⟩ := answered
      · have nothing : (answer ⟨.global, context⟩).toOption = some a := makes
        rw [stopped.answer] at nothing
        cases nothing
      · exact fits made makes

end Asking

end Answers

/-! ## What holds throughout a run -/

namespace Asked

variable {tracing : Bool} {moment : Moment} {askings : List Asking} {events : List Event}

theorem reached (asked : Asked tracing moment askings events) : moment.Reached := by
  induction asked with
  | start => exact Session.Reached.start tracing
  | turn _ turn inductionHypothesis => exact turn.reached inductionHypothesis
  | @request session frames _ _ _ request inductionHypothesis =>
      exact (Moment.turn_request session frames request).reached inductionHypothesis

/-- All that is recorded in a run gives an account of the default scopes. -/
theorem accounts (asked : Asked tracing moment askings events) :
    (Session.start tracing).context.Accounts events moment.session.context := by
  induction asked with
  | start => exact .nil rfl rfl rfl
  | turn _ turn inductionHypothesis => exact inductionHypothesis.append turn.accounts
  | @request session frames _ _ _ request inductionHypothesis =>
      exact inductionHypothesis.append (Moment.turn_request session frames request).accounts

theorem answered (asked : Asked tracing moment askings events) :
    ∀ asking ∈ askings, asking.Answered moment.session.context := by
  induction asked with
  | start => simp
  | turn sofar turn inductionHypothesis =>
      intro asking member
      exact (inductionHypothesis asking member).persist (turn.persists sofar.reached)
  | @request session frames _ _ sofar request inductionHypothesis =>
      have persists := (Moment.turn_request session frames request).persists sofar.reached
      intro asking member
      rcases List.mem_append.mp member with earlier | last
      · exact (inductionHypothesis asking earlier).persist persists
      · rw [List.mem_singleton.mp last]
        exact Asking.answered _

/-- No scope is made twice. -/
theorem nodup_made (asked : Asked tracing moment askings events) :
    (askings.filterMap Asking.made?).Nodup ∧
      ∀ a ∈ askings.filterMap Asking.made?, a < moment.store.size := by
  induction asked with
  | start => simp
  | turn sofar turn inductionHypothesis =>
      obtain ⟨distinct, present⟩ := inductionHypothesis
      have retains := turn.retains sofar.reached
      exact ⟨distinct, fun a member => Nat.lt_of_lt_of_le (present a member) retains.size⟩
  | @request session frames askings _ sofar request inductionHypothesis =>
      obtain ⟨distinct, present⟩ := inductionHypothesis
      have retains := (Moment.turn_request session frames request).retains sofar.reached
      have presentStill : ∀ a ∈ askings.filterMap Asking.made?,
          a < (Asking.after ⟨request, session.context⟩).store.size :=
        fun a member => Nat.lt_of_lt_of_le (present a member) retains.size
      rw [List.filterMap_append]
      cases made : Asking.made? ⟨request, session.context⟩ with
      | none =>
          simp only [List.filterMap_cons, made, List.filterMap_nil, List.append_nil]
          exact ⟨distinct, presentStill⟩
      | some a =>
          obtain ⟨fresh, lt⟩ := Asking.made?_bounds _ made
          have new : a ∉ askings.filterMap Asking.made? := fun old =>
            Nat.not_lt_of_ge fresh (present a old)
          simp only [List.filterMap_cons, made, List.filterMap_nil]
          refine ⟨List.concat_eq_append ▸ distinct.concat new, fun b member => ?_⟩
          rcases List.mem_append.mp member with old | last
          · exact presentStill b old
          · rw [List.mem_singleton.mp last]
            exact lt

end Asked

end ScopedValues
