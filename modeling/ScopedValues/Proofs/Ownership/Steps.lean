import ScopedValues.Proofs.Ownership.Actions
import ScopedValues.Proofs.Ownership.Expressions
import ScopedValues.Proofs.Sessions.Steps

/-!
Contract: the steps of a session make no tuple slot for an address that has one.

Owns the steps that collect no tuple from existing values, and the spending of paths, of
the parts of steps, and of steps.

Main statement: such a step, whether it fails or not, starts and ends with nothing in hand.
-/

set_option autoImplicit false

namespace ScopedValues

open Store

/-! ## Steps that collect no existing values -/

namespace Step

mutual

/-- Whether every tuple that the step collects is collected from new values. -/
def collectsNew : Step → Bool
  | .store _ value => value.collectsNew
  | .look value => value.collectsNew
  | .profile value => value.collectsNew
  | .inspect value => value.collectsNew
  | .compare left right => left.collectsNew && right.collectsNew
  | .identical left right => left.collectsNew && right.collectsNew
  | .descends inner outer => inner.collectsNew && outer.collectsNew
  | .globalScope _ value _ => value.collectsNew
  | .toList value _ => value.collectsNew
  | .cursorOver _ value => value.collectsNew
  | .loop _ steps => allCollectNew steps
  | .act _ _ action _ => action.given?.all Expr.collectsNew
  | _ => true
termination_by structural step => step

def allCollectNew : List Step → Bool
  | [] => true
  | step :: rest => step.collectsNew && allCollectNew rest
termination_by structural steps => steps

end

end Step

namespace Session

open Holding (Spends)

/-! ## Paths -/

/-- The variable that a path starts at is not counted while its value is the place. -/
theorem spends_atPath (name : String) (path : List Hop) {work : PlaceM Outcome}
    {given : List Addr} (spends : Place.Spends work given Outcome.hand) :
    Session.Spends (atPath name path work) given Outcome.hand := by
  refine .of_eq fun credit session affords => ?_
  cases bound : session.named.get? name with
  | none =>
      exact ⟨_, _, Discipline.bind_of_error (valueOf_of_unbound bound), .refl _, rfl, affords.drop,
        fun _ impossible => by cases impossible⟩
  | some value =>
      have apart : session.context.store.Affords
          (credit.less (session.named.erase name).handed) (value.handed ++ given) := by
        refine affords_less.mpr (Store.Affords.mono affords fun c => ?_)
        have removed := Table.count_erase c session.named name
        rw [bound, Option.getD_some] at removed
        show _ ≤ (session.named.handed ++ given).count c
        simp only [List.count_append]
        omega
      obtain ⟨sound, ⟨shelters, fixed⟩, answered⟩ := Place.spends_follow spends path _
        { value, writable := true, context := session.context } apart
      have done := atPath_of_bound bound path work
      generalize Place.follow path work { value, writable := true, context := session.context } =
        outcome at sound shelters fixed answered done
      obtain ⟨answer, last, writable, context⟩ := outcome
      obtain rfl : writable = true := fixed
      have stored : ∀ hand, context.store.Affords
          (credit.less (session.named.erase name).handed) (last.handed ++ hand) →
            holding.Affords credit
              { session with context, named := session.named.insert name last } hand := by
        intro hand enough
        refine Store.Affords.mono (affords_less.mp enough) fun c => ?_
        have removed := Table.count_erase c session.named name
        have placed := Table.count_insert c session.named name last
        show ((session.named.insert name last).handed ++ hand).count c ≤ _
        simp only [List.count_append]
        omega
      exact ⟨_, _, done, shelters, rfl, stored [] sound, fun x same =>
        stored x.hand (answered x same)⟩

/-! ## Parts of steps -/

theorem spends_keeping (keep : Keep) (outcome : Outcome) :
    Session.Spends (keeping keep outcome) outcome.hand fun _ => [] := by
  unfold keeping
  cases keep.name with
  | none => exact .pure fun _ => by simp
  | some name =>
      cases yielded : outcome.yielded with
      | none => exact .pure fun _ => by simp
      | some value =>
          rw [Outcome.hand, yielded]
          exact (spends_bind name value).bind fun _ => .idle

theorem spends_yielding (keep : Keep) (found : Option Value) :
    Session.Spends (yielding keep found) (Value.handedAny found) fun _ => [] :=
  (spends_inContext (Context.spends_yieldingAny keep.quiet found)).bind (spends_keeping keep)

theorem idles_cursor? (name : String) : Idles (cursor? name) := by
  refine Spends.get.bind fun session => ?_
  cases session.cursors.get? name with
  | none => exact .throw _
  | some cursor => exact .idle

theorem idles_setCursor (name : String) (cursor : Cursor) : Idles (setCursor name cursor) :=
  .of_eq fun _ _ affords => ⟨_, _, rfl, .refl _, rfl, affords, fun _ _ => affords⟩

theorem idles_descent (inner outer : Value) : Context.Idles (descent inner outer) := by
  unfold descent
  split
  · exact (Context.idles_ask _).bind fun _ => .idle
  · exact .idle

theorem idles_showing (found : Option Value) :
    Context.Idles (found.mapM Context.shown) := by
  cases found with
  | none => exact .idle
  | some value => exact (Context.idles_shown value).bind fun _ => .idle

/-- The scope that is made is yielded as a handle of its own, in no tuple. -/
theorem spends_globalOutcome (key : String) (value : Value) :
    Context.Spends (globalOutcome key value) value.handed Outcome.hand := by
  refine (Context.spends_globalScope.drop.beside value.handed).bind fun scope => ?_
  refine (Context.spends_assign scope key value).bind fun _ => ?_
  refine (Context.spends_onStore fun store => trades_lookup store scope key).drop.bind
    fun found => ?_
  refine (idles_showing found).bind fun text => (Context.idles_ask _).bind fun table => ?_
  refine Context.idles_defaultGlobalScope.bind fun enclosing => ?_
  refine (Context.idles_ask _).bind fun inside => (Context.idles_ask _).bind fun plain => ?_
  exact .done rfl

theorem idles_scopeText? (a : Addr) : Context.Idles (scopeText? a) := by
  refine (Context.idles_ask _).bind fun tree => ?_
  cases tree <;> exact .idle

theorem idles_scopeDataAnswer (parent : Option Addr) :
    Context.Idles (scopeDataAnswer parent) := by
  cases parent with
  | none => exact .idle
  | some a =>
      exact (Context.idles_ask _).bind fun text => (idles_scopeText? a).bind fun _ => .idle

theorem idles_passing (name : String) (count : Option Nat) : Idles (passing name count) := by
  refine (idles_cursor? name).bind fun cursor => ?_
  refine (spends_inContext (show Context.Idles (Context.onStore _) from ?_)).bind fun answer => ?_
  · cases count with
    | none => exact Context.spends_onStore fun store => Cursor.trades_pass store cursor
    | some count => exact Context.spends_onStore fun store => Cursor.trades_take store cursor count
  · obtain ⟨values, after⟩ := answer
    exact (idles_setCursor name after).bind fun _ =>
      spends_inContext (Context.idles_shownAll values)

theorem idles_repeatedly {work : SessionM Answer} (idles : Idles work) (count : Nat) :
    Idles (repeatedly work count) := by
  induction count with
  | zero => exact .idle
  | succ count inductionHypothesis =>
      refine idles.bind fun answer => ?_
      split
      · exact .idle
      · exact inductionHypothesis

/-! ## Values given to actions -/

theorem spends_evalGiven {expr : Expr} (collects : expr.collectsNew = true) :
    Session.Spends (eval expr) [] Value.handed :=
  (spends_eval expr collects).mono expr.count_handed_le_hand

theorem spends_giveTuple {action : TupleAction Expr}
    (collects : action.given?.all Expr.collectsNew = true) :
    Session.Spends (action.give eval) [] fun given => Value.handedAny given.given? := by
  cases action with
  | push expr => exact (spends_evalGiven collects).bind fun value => .done rfl
  | _ => exact .done rfl

theorem spends_giveList {action : ListAction Expr}
    (collects : action.given?.all Expr.collectsNew = true) :
    Session.Spends (action.give eval) [] fun given => Value.handedAny given.given? := by
  cases action with
  | set index expr =>
      exact (spends_evalGiven collects).bind fun value => .done rfl
  | push expr => exact (spends_evalGiven collects).bind fun value => .done rfl
  | _ => exact .done rfl

theorem spends_giveMap {action : MapAction Expr}
    (collects : action.given?.all Expr.collectsNew = true) :
    Session.Spends (action.give eval) [] fun given => Value.handedAny given.given? := by
  cases action with
  | assign key expr =>
      exact (spends_evalGiven collects).bind fun value => .done rfl
  | insert key expr =>
      exact (spends_evalGiven collects).bind fun value => .done rfl
  | _ => exact .done rfl

theorem spends_give {action : Action Expr}
    (collects : action.given?.all Expr.collectsNew = true) :
    Session.Spends (action.give eval) [] fun given => Value.handedAny given.given? := by
  cases action with
  | replace expr =>
      exact (spends_evalGiven collects).bind fun value => .done rfl
  | onTuple action =>
      exact (spends_giveTuple collects).bind fun given => .done rfl
  | onList action =>
      exact (spends_giveList collects).bind fun given => .done rfl
  | onMap action =>
      exact (spends_giveMap collects).bind fun given => .done rfl
  | _ => exact .done rfl

/-! ## Steps -/

mutual

theorem idles_perform : ∀ (step : Step), step.collectsNew = true → Idles (perform step)
  | .store name expr, collects =>
      (spends_evalGiven collects).bind fun value =>
        ((spends_inContext (Context.idles_shown value)).beside value.handed).bind fun shown =>
          (spends_bind name value).bind fun _ => .idle
  | .drop name, _ =>
      Spends.get.bind fun session => (idles_unbind name).bind fun _ => .idle
  | .look value, collects =>
      (idles_operand collects).bind fun value =>
        (spends_inContext (Context.idles_shown value)).bind fun _ => .idle
  | .profile value, collects =>
      (idles_operand collects).bind fun value =>
        (spends_inContext (Context.idles_profile value)).bind fun _ => .idle
  | .inspect value, collects =>
      (idles_operand collects).bind fun value =>
        (spends_inContext (Context.idles_ask _)).bind fun _ => .idle
  | .compare left right, collects => by
      obtain ⟨first, second⟩ := Bool.and_eq_true_iff.mp collects
      refine (idles_operands first second).bind fun pair => ?_
      exact (spends_inContext (Context.idles_compare pair.1 pair.2)).bind fun _ => .idle
  | .identical left right, collects => by
      obtain ⟨first, second⟩ := Bool.and_eq_true_iff.mp collects
      exact (idles_operands first second).bind fun pair => .idle
  | .descends inner outer, collects => by
      obtain ⟨first, second⟩ := Bool.and_eq_true_iff.mp collects
      exact (idles_operands first second).bind fun pair =>
        spends_inContext (idles_descent pair.1 pair.2)
  | .scope scope keep, _ =>
      (spends_evalScope scope).drop.bind fun a => spends_yielding keep (some (.map a))
  | .globalScope key expr keep, collects =>
      (spends_evalGiven collects).bind fun value =>
        (spends_inContext (spends_globalOutcome key value)).bind (spends_keeping keep)
  | .scopeData parent, _ => by
      have located : Idles (parent.mapM scopeOf) := by
        cases parent with
        | none => exact .idle
        | some name => exact (idles_scopeOf name).bind fun _ => .idle
      exact located.bind fun parent => spends_inContext (idles_scopeDataAnswer parent)
  | .toList value keep, collects =>
      (idles_operand collects).bind fun value =>
        (spends_inContext (Context.spends_listOfTuple value)).drop.bind fun a =>
          spends_yielding keep (some (.list a))
  | .cursorOver cursor value, collects => by
      refine (idles_operand collects).bind fun value => ?_
      cases Cursor.over? value with
      | none => exact .idle
      | some fresh => exact (idles_setCursor cursor fresh).bind fun _ => .idle
  | .cursorNext cursor keep, _ => by
      refine (idles_cursor? cursor).bind fun current => ?_
      refine (spends_inContext (Context.spends_onStore fun store =>
        Cursor.trades_next store current)).bind fun answer => ?_
      obtain ⟨found, after⟩ := answer
      exact ((idles_setCursor cursor after).beside (Value.handedAny found)).bind fun _ =>
        spends_yielding keep found
  | .cursorReset cursor, _ =>
      (idles_cursor? cursor).bind fun current =>
        (idles_setCursor cursor current.reset).bind fun _ => .idle
  | .cursorPass cursor count, _ => idles_passing cursor count
  | .idle, _ => .idle
  | .loop count steps, collects => idles_repeatedly (idles_performAll steps collects) count
  | .act name path action keep, collects =>
      (spends_give collects).bind fun given =>
        Spends.get.bind fun session =>
          (spends_atPath name path (given.spends_run (holders session.named) keep.quiet)).bind
            (spends_keeping keep)
termination_by structural step => step

theorem idles_performAll : ∀ (steps : List Step), Step.allCollectNew steps = true →
    Idles (performAll steps)
  | [], _ => .idle
  | step :: rest, collects => by
      obtain ⟨here, others⟩ := Bool.and_eq_true_iff.mp collects
      refine (idles_perform step here).bind fun answer => ?_
      split
      · exact .idle
      · exact idles_performAll rest others
termination_by structural steps => steps

end

end Session

end ScopedValues
