import ScopedValues.Proofs.Ownership.Contexts
import ScopedValues.Proofs.Sessions.Places

/-!
Contract: what work at places makes of the slots in hand.

Owns the slots that a place keeps, the spending of hops and paths, and the exchange of the
value of a place for another.

Main statement: work at the end of a path spends, from the start of the path, what it
spends at its end.

A value that cannot be exchanged where it stands belongs to the tuple that it is in, and
its place keeps no slots of its own.
-/

set_option autoImplicit false

namespace ScopedValues

open Store

namespace Place

def holding : Holding Place where
  store place := place.context.store
  slots place := if place.writable then place.value.handed else []
  fixed := Place.writable

abbrev Spends {α : Type} (work : PlaceM α) (given : List Addr) (taken : α → List Addr) : Prop :=
  holding.Spends work given taken

/-- Nothing is in hand before the work or after it. -/
abbrev Idles {α : Type} (work : PlaceM α) : Prop :=
  Spends work [] fun _ => []

open Holding (Spends)

section Works

variable {ρ : Type} {given : List Addr} {taken : ρ → List Addr}

/-- Work in the context of a place leaves its value where it is. -/
theorem keeps_inContextOnly {work : ContextM ρ} (spends : Context.Spends work given taken)
    {credit : Credit} {place : Place} (affords : holding.Affords credit place given) :
    (holding.discipline credit).Keeps place (inContext work) fun x after =>
      holding.Affords credit after (taken x) ∧ after.value = place.value ∧
        after.writable = place.writable := by
  obtain ⟨sound, grows, holds⟩ := spends _ place.context (affords_less.mpr affords)
  refine .of_eq (inContext_eq work place) (affords_less.mp sound) ⟨grows.1, rfl⟩ ?_
  intro x answered
  exact ⟨affords_less.mp (holds x (Discipline.eq_ok_of_mapError answered)), rfl, rfl⟩

theorem spends_inContext {work : ContextM ρ} (spends : Context.Spends work given taken) :
    Place.Spends (inContext work) given taken :=
  fun _ _ affords => (keeps_inContextOnly spends affords).mono fun _ _ both => both.1

theorem idles_here : Idles here :=
  Spends.get.bind fun _ => .idle

theorem idles_hereAs {κ : Type} (kind : Value → Option κ) : Idles (hereAs kind) := by
  refine idles_here.bind fun value => ?_
  cases kind value with
  | none => exact .throw _
  | some content => exact .idle

/-! ## Hops -/

/-- What is in hand with an outcome that may be a failure. -/
def handOf (taken : ρ → List Addr) : Except Failure ρ → List Addr
  | .ok x => taken x
  | .error _ => []

theorem spends_answered (outcome : Except Failure ρ) :
    Place.Spends (answered outcome) (handOf taken outcome) taken := by
  cases outcome with
  | ok x => exact .done rfl
  | error failure => exact .throw _

variable {work : PlaceM ρ}

theorem spends_lent (spends : Place.Spends work given taken) :
    Context.SpendsInPlace (lent work) given (handOf taken) := by
  intro credit value context affords
  obtain ⟨sound, ⟨shelters, fixed⟩, answered⟩ :=
    spends credit { value, writable := true, context } affords
  unfold lent
  generalize work { value, writable := true, context } = outcome
    at sound shelters fixed answered ⊢
  obtain ⟨answer, last, writable, after⟩ := outcome
  obtain rfl : writable = true := fixed
  refine ⟨shelters, ?_⟩
  cases answer with
  | error failure => exact sound
  | ok x => exact answered x rfl

/-- Elsewhere, the slots of the place that is visited are in hand first and dropped last. -/
theorem spends_visiting (spends : Place.Spends work given taken) (value : Value)
    (writable : Bool) :
    Place.Spends (visiting value writable work)
      ((if writable then value.handed else []) ++ given) taken := by
  intro credit place affords
  obtain ⟨sound, ⟨shelters, _⟩, answered⟩ :=
    spends _ { value, writable, context := place.context } (affords_less.mpr affords)
  have leaves : ∀ {after : Place} {hand : List Addr},
      holding.Affords (credit.less (holding.slots place)) after hand →
        holding.Affords credit { place with context := after.context } hand := by
    intro after hand enough
    refine (affords_less.mp enough).mono fun a => ?_
    simp only [List.count_append]
    show (holding.slots place).count a + _ ≤ _
    omega
  exact .of_eq rfl (leaves sound) ⟨shelters, rfl⟩ fun x same => leaves (answered x same)

theorem spends_visitingCopy (spends : Place.Spends work given taken) (found : Option Value) :
    Place.Spends (visitingCopy found work) (Value.handedAny found ++ given) taken := by
  cases found with
  | none => exact .throw _
  | some copy => exact spends_visiting spends copy true

theorem spends_hop (spends : Place.Spends work given taken) (next : Hop) :
    Place.Spends (hop next work) given taken := by
  cases next with
  | item index =>
      refine ((idles_hereAs _).beside given).bind fun a => ?_
      exact (spends_inContext (Context.spends_withItem (spends_lent spends) a index)).bind
        spends_answered
  | entry key =>
      refine ((idles_hereAs _).beside given).bind fun a => ?_
      exact (spends_inContext (Context.spends_withEntry (spends_lent spends) a key)).bind
        spends_answered
  | element position =>
      refine ((idles_hereAs _).beside given).bind fun items => ?_
      cases items[position]? with
      | none => exact .throw _
      | some element => exact spends_visiting spends element false
  | get index =>
      refine ((idles_hereAs _).beside given).bind fun a => ?_
      have copies := spends_inContext (Context.spends_onStore fun store =>
        trades_getItem store a index)
      refine (copies.aside given).bind fun copy => (spends_visiting spends copy true).enough ?_
      exact fun c => Nat.le_of_eq (List.perm_append_comm.count_eq c)
  | find key =>
      refine ((idles_hereAs _).beside given).bind fun a => ?_
      have copies := spends_inContext (Context.spends_onStore fun store =>
        trades_find store a key)
      refine (copies.aside given).bind fun found => (spends_visitingCopy spends found).enough ?_
      exact fun c => Nat.le_of_eq (List.perm_append_comm.count_eq c)
  | lookup key =>
      refine ((idles_hereAs _).beside given).bind fun a => ?_
      have copies := spends_inContext (Context.spends_onStore fun store =>
        trades_lookup store a key)
      refine (copies.aside given).bind fun found => (spends_visitingCopy spends found).enough ?_
      exact fun c => Nat.le_of_eq (List.perm_append_comm.count_eq c)

theorem spends_follow (spends : Place.Spends work given taken) (path : List Hop) :
    Place.Spends (follow path work) given taken := by
  induction path with
  | nil => exact spends
  | cons next rest inductionHypothesis => exact spends_hop inductionHypothesis next

/-! ## Exchanging the value of a place -/

section Exchange

variable {credit : Credit} {place : Place}

theorem keeps_writable (affords : holding.Affords credit place given) :
    (holding.discipline credit).Keeps place requireWritable fun _ after =>
      after = place ∧ place.writable = true := by
  apply (Discipline.Keeps.get affords.drop).bind
  intro _ later laterSound _ kept
  rcases kept with ⟨rfl, rfl⟩
  cases writable : later.writable with
  | false =>
      rw [Bool.not_false, if_pos rfl]
      exact .throw laterSound _
  | true =>
      rw [Bool.not_true, if_neg Bool.false_ne_true]
      exact .pure laterSound ⟨rfl, rfl⟩

theorem keeps_value (affords : holding.Affords credit place given) :
    (holding.discipline credit).Keeps place here fun value after =>
      after = place ∧ value = place.value := by
  apply (Discipline.Keeps.get affords.drop).bind
  intro _ later laterSound _ kept
  rcases kept with ⟨rfl, rfl⟩
  exact .pure laterSound ⟨rfl, rfl⟩

theorem keeps_tuple (affords : holding.Affords credit place given) :
    (holding.discipline credit).Keeps place (hereAs Value.asTuple?) fun items after =>
      after = place ∧ place.value = .tuple items := by
  apply (keeps_value affords).bind
  intro value later laterSound _ kept
  rcases kept with ⟨rfl, same⟩
  cases value with
  | tuple items => exact .pure laterSound ⟨rfl, same.symm⟩
  | _ => exact .throw laterSound _

/-- The slots of the old value are free for the new one and for what is in hand after. -/
theorem keeps_exchanging (affords : holding.Affords credit place given)
    (writable : place.writable = true) {changed : Value} {hand : List Addr}
    (covers : ∀ c, changed.handed.count c + hand.count c ≤
      place.value.handed.count c + given.count c) :
    (holding.discipline credit).Keeps place (exchange changed) fun _ after =>
      holding.Affords credit after hand := by
  obtain ⟨value, _, context⟩ := place
  obtain rfl := writable
  have exchanged : holding.Affords credit { value := changed, writable := true, context } hand := by
    refine Store.Affords.mono affords fun c => ?_
    rw [List.count_append, List.count_append]
    exact covers c
  exact .of_eq rfl exchanged.drop ⟨.refl _, rfl⟩ fun _ _ => exchanged

end Exchange

end Works

end Place

end ScopedValues
