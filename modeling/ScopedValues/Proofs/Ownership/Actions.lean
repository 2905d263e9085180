import ScopedValues.Proofs.Ownership.Places
import ScopedValues.Session.Action

/-!
Contract: what actions make of the slots in hand.

Owns the value that an action is given, and the spending of every action on tuples, on
lists, on maps and on values of any kind.

Main statement: an action takes the slots of the value that it is given, and what it
yields comes with slots that nothing else has.
-/

set_option autoImplicit false

namespace ScopedValues

open Store

/-- What is in hand with an outcome: the slots of the value that it yields. -/
def Outcome.hand (outcome : Outcome) : List Addr :=
  Value.handedAny outcome.yielded

/-! ## The value that an action is given -/

section Given

variable {ε : Type}

def TupleAction.given? : TupleAction ε → Option ε
  | .push value => some value
  | _ => none

def ListAction.given? : ListAction ε → Option ε
  | .set _ value => some value
  | .push value => some value
  | _ => none

def MapAction.given? : MapAction ε → Option ε
  | .assign _ value => some value
  | .insert _ value => some value
  | _ => none

def Action.given? : Action ε → Option ε
  | .replace value => some value
  | .onTuple action => action.given?
  | .onList action => action.given?
  | .onMap action => action.given?
  | _ => none

end Given

/-! ## Actions on containers -/

namespace Context

open Holding (Spends)

theorem spends_yielding (quiet : Bool) (value : Value) :
    Context.Spends (yielding quiet value) value.handed Outcome.hand := by
  unfold yielding
  split
  · exact .done rfl
  · exact ((idles_shown value).beside value.handed).bind fun _ => .done rfl

theorem spends_yieldingAny (quiet : Bool) (found : Option Value) :
    Context.Spends (yieldingAny quiet found) (Value.handedAny found) Outcome.hand := by
  cases found with
  | none => exact .done rfl
  | some value => exact spends_yielding quiet value

/-- Work on storage whose answer is then yielded. -/
theorem spends_stored (quiet : Bool) {given : List Addr}
    {work : Store → Except Fault (Value × Store)}
    (trades : ∀ store : Store, store.Trades given (work store) Value.handed) :
    Context.Spends (do yielding quiet (← onStore work)) given Outcome.hand :=
  (spends_onStore trades).bind (spends_yielding quiet)

theorem spends_storedAny (quiet : Bool) {given : List Addr}
    {work : Store → Except Fault (Option Value × Store)}
    (trades : ∀ store : Store, store.Trades given (work store) Value.handedAny) :
    Context.Spends (do yieldingAny quiet (← onStore work)) given Outcome.hand :=
  (spends_onStore trades).bind (spends_yieldingAny quiet)

/-- Work that is only told about. -/
theorem spends_answer {α : Type} {work : ContextM α} {given : List Addr}
    (spends : Context.Spends work given fun _ => []) (answer : α → Answer) :
    Context.Spends (do return { answer := answer (← work) }) given Outcome.hand :=
  spends.bind fun _ => .done rfl

end Context

open Context

theorem ListAction.spends_run (quiet : Bool) (a : Addr) (action : ListAction Value) :
    Context.Spends (action.run quiet a) (Value.handedAny action.given?) Outcome.hand := by
  cases action with
  | extent => exact spends_answer (idles_ask _) _
  | get index => exact spends_stored quiet fun store => trades_getItem store a index
  | set index value => exact spends_stored quiet fun store => trades_setItem store a index value
  | push value =>
      refine (spends_change fun store _ => trades_push store a value).bind fun _ => ?_
      exact spends_answer (idles_ask _) _
  | pop index => exact spends_stored quiet fun store => trades_pop store a index
  | items => exact (idles_ask _).bind fun items => spends_answer (idles_shownAll items) id
  | deepCopy =>
      exact (spends_onStore fun store => trades_detach store a).drop.bind fun copy =>
        spends_yielding quiet (.list copy)

namespace MapAction

theorem spends_ownerOutcome (holders : Addr → List String) (a : Addr) (key : String) :
    Context.Spends (ownerOutcome holders a key) [] Outcome.hand := by
  refine (idles_ask _).bind fun owner => ?_
  cases owner with
  | none => exact .done rfl
  | some owner => exact .bind .get fun context => .done rfl

theorem idles_chainAnswer (holders : Addr → List String) (a : Addr) :
    Context.Idles (chainAnswer holders a) := by
  refine (idles_ask _).bind fun chain => ?_
  exact (Holding.Spends.mapM fun scope _ => idles_ask _).bind fun texts => .idle

theorem idles_entriesAnswer (a : Addr) : Context.Idles (entriesAnswer a) := by
  refine (idles_ask _).bind fun table => ?_
  exact (Holding.Spends.mapM fun entry _ => (idles_shown entry.2).bind fun _ => .idle).bind
    fun rows => .idle

theorem spends_run (holders : Addr → List String) (quiet : Bool) (a : Addr)
    (action : MapAction Value) :
    Context.Spends (action.run holders quiet a) (Value.handedAny action.given?) Outcome.hand := by
  cases action with
  | extent => exact spends_answer (idles_ask _) _
  | contains key => exact spends_answer (idles_ask _) _
  | find key => exact spends_storedAny quiet fun store => trades_find store a key
  | lookup key => exact spends_storedAny quiet fun store => trades_lookup store a key
  | erase key => exact spends_storedAny quiet fun store => trades_erase store a key
  | owner key => exact spends_ownerOutcome holders a key
  | assign key value => exact spends_answer (spends_assign a key value) fun _ => .nothing
  | insert key value =>
      exact spends_storedAny quiet fun store => trades_insert store a key value
  | child => exact (spends_child a).drop.bind fun made => spends_yielding quiet (.map made)
  | deepCopy =>
      exact (spends_onStore fun store => trades_detach store a).drop.bind fun copy =>
        spends_yielding quiet (.map copy)
  | parent =>
      refine (idles_ask _).bind fun parent => (spends_yieldingAny quiet _).enough fun c => ?_
      cases parent <;> exact Nat.le_refl _
  | chain => exact spends_answer (idles_chainAnswer holders a) id
  | entries => exact spends_answer (idles_entriesAnswer a) id

end MapAction

/-! ## Actions at places -/

open Place

namespace Place

/-- Work in the context of a place that is only told about. -/
theorem spends_told {α : Type} {work : ContextM α} {given : List Addr}
    (spends : Context.Spends work given fun _ => []) (answer : α → Answer) :
    Place.Spends (do return { answer := answer (← inContext work) }) given Outcome.hand :=
  (spends_inContext spends).bind fun _ => .done rfl

theorem spends_copying (quiet : Bool) (value : Value) :
    Place.Spends (do
      let copy ← inContext (Context.onStore (·.copy value))
      inContext (Context.yielding quiet copy)) [] Outcome.hand :=
  (spends_inContext (spends_onStore fun store => trades_copy store value)).bind fun copy =>
    spends_inContext (spends_yielding quiet copy)

/-- The tuple takes a copy of what it is given, never the value itself. -/
theorem spends_push (quiet : Bool) (value : Value) {given : List Addr} :
    Place.Spends ((TupleAction.push value).run quiet) given Outcome.hand := by
  intro credit place affords
  apply (keeps_writable affords.drop).bind
  intro _ one oneSound _ kept
  obtain ⟨rfl, writable⟩ := kept
  apply (keeps_tuple oneSound).bind
  intro items two twoSound _ kept
  obtain ⟨rfl, tuple⟩ := kept
  have copies : Context.Spends (onStore (·.deepCopy value)) [] Value.addresses :=
    spends_onStore fun store => trades_deepCopy store value
  apply (keeps_inContextOnly copies twoSound).bind
  intro copy three _ _ kept
  obtain ⟨enough, sameValue, sameWritable⟩ := kept
  apply (@keeps_exchanging _ _ _ enough (sameWritable.trans writable)
    (.tuple (items ++ [copy])) [] fun c => ?_).bind
  · intro _ _ _ _ last
    exact .pure last last
  · rw [sameValue, tuple]
    simp

theorem spends_pop (quiet : Bool) :
    Place.Spends ((TupleAction.pop : TupleAction Value).run quiet) [] Outcome.hand := by
  intro credit place affords
  apply (keeps_writable affords).bind
  intro _ one oneSound _ kept
  obtain ⟨rfl, writable⟩ := kept
  apply (keeps_tuple oneSound).bind
  intro items two twoSound _ kept
  obtain ⟨rfl, tuple⟩ := kept
  cases items with
  | nil => exact .throw twoSound _
  | cons first rest =>
      apply (@keeps_exchanging _ _ _ twoSound writable (.tuple rest) first.handed fun c => ?_).bind
      · intro _ three _ _ enough
        exact spends_inContext (spends_yielding quiet first) credit three enough
      · have moved := first.count_handed_le c
        simp only [tuple, Value.handed_tuple, List.flatMap_cons, List.count_append,
          List.count_nil]
        omega

end Place

theorem TupleAction.spends_run (quiet : Bool) (action : TupleAction Value) :
    Place.Spends (action.run quiet) (Value.handedAny action.given?) Outcome.hand := by
  cases action with
  | push value => exact spends_push quiet value
  | pop => exact spends_pop quiet
  | extent => exact (idles_hereAs _).bind fun items => .done rfl
  | get position =>
      refine (idles_hereAs _).bind fun items => ?_
      dsimp only
      cases items[position]? with
      | none => exact .done rfl
      | some element => exact spends_copying quiet element
  | items => exact (idles_hereAs _).bind fun items => spends_told (idles_shownAll items) id
  | copiedItems =>
      refine (idles_hereAs _).bind fun items => ?_
      have copies := spends_inContext (spends_onStore fun store => trades_deepCopyAll store items)
      exact copies.drop.bind fun copies => spends_told (idles_shownAll copies) id

theorem Place.spends_replace (holders : Addr → List String) (quiet : Bool) (value : Value) :
    Place.Spends ((Action.replace value).run holders quiet) value.handed Outcome.hand := by
  intro credit place affords
  apply (keeps_writable affords.drop).bind
  intro _ one oneSound _ kept
  obtain ⟨rfl, writable⟩ := kept
  apply (keeps_value oneSound).bind
  intro old two twoSound _ kept
  obtain ⟨rfl, rfl⟩ := kept
  apply (@keeps_exchanging _ _ _ affords writable value two.value.handed fun c =>
    Nat.le_of_eq (Nat.add_comm _ _)).bind
  intro _ three _ _ enough
  exact spends_inContext (spends_yielding quiet two.value) credit three enough

theorem Action.spends_run (holders : Addr → List String) (quiet : Bool) (action : Action Value) :
    Place.Spends (action.run holders quiet) (Value.handedAny action.given?) Outcome.hand := by
  cases action with
  | read => exact idles_here.bind fun value => spends_copying quiet value
  | kind => exact idles_here.bind fun value => .done rfl
  | truth => exact idles_here.bind fun value => spends_told (idles_truth? value) _
  | spell => exact idles_here.bind fun value => spends_told (idles_ask _) _
  | replace value => exact spends_replace holders quiet value
  | onTuple action => exact action.spends_run quiet
  | onList action =>
      exact ((idles_hereAs _).beside _).bind fun a => spends_inContext (action.spends_run quiet a)
  | onMap action =>
      exact ((idles_hereAs _).beside _).bind fun a =>
        spends_inContext (action.spends_run holders quiet a)

end ScopedValues
