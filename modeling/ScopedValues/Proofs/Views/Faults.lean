import ScopedValues.Proofs.Storage.Cycles
import ScopedValues.Proofs.Storage.Operations
import ScopedValues.Proofs.Views.Comparing

/-!
Contract: which faults comparing values and following their addresses can end with.

Owns the faults of a walk through values, given those of the walk from an address, and of
reading one payload.

Main statement: a walk through a value fails only as the walks from its addresses do.
-/

set_option autoImplicit false

namespace ScopedValues

open Store

variable {allowed : Fault → Prop}

/-! ## Faults of a comparison -/

section Comparing

variable {agree : Addr → Addr → Except Fault Bool} {region other : Addr → Prop}

theorem FailsOnly.andThen {first second : Except Fault Bool} (starts : FailsOnly allowed first)
    (goes : FailsOnly allowed second) :
    FailsOnly allowed (do if ← first then second else .ok false) := by
  refine starts.bind fun answer _ => ?_
  cases answer with
  | true => exact goes
  | false => exact .ok false

theorem Value.failsOnly_equalAllBy {xs : List Value}
    (each : ∀ x ∈ xs, ∀ y : Value, y.Within other → FailsOnly allowed (x.equalBy agree y)) :
    ∀ ys : List Value, (∀ y ∈ ys, y.Within other) → FailsOnly allowed (equalAllBy agree xs ys) := by
  induction xs with
  | nil => exact fun _ _ => .ok true
  | cons x xs inductionHypothesis =>
      intro ys within
      rw [List.forall_mem_cons] at each
      cases ys with
      | nil => exact .ok true
      | cons y ys =>
          rw [List.forall_mem_cons] at within
          exact (each.1 y within.1).andThen (inductionHypothesis each.2 ys within.2)

theorem Value.failsOnly_equalBy
    (each : ∀ a b, region a → other b → FailsOnly allowed (agree a b)) {x : Value}
    (within : x.Within region) :
    ∀ y : Value, y.Within other → FailsOnly allowed (x.equalBy agree y) := by
  induction x with
  | scalar x =>
      intro y _
      cases y <;> exact .ok _
  | tuple xs inductionHypothesis =>
      intro y withinToo
      rw [within_tuple] at within
      cases y with
      | tuple ys =>
          rw [within_tuple] at withinToo
          rw [equalBy]
          split
          · exact failsOnly_equalAllBy
              (fun x member => inductionHypothesis x member (within x member)) ys withinToo
          · exact .ok false
      | _ => exact .ok false
  | list a =>
      intro y withinToo
      cases y with
      | list b => exact each a b ((within_list _ a).mp within) ((within_list _ b).mp withinToo)
      | _ => exact .ok false
  | map a =>
      intro y withinToo
      cases y with
      | map b => exact each a b ((within_map _ a).mp within) ((within_map _ b).mp withinToo)
      | _ => exact .ok false

theorem Table.failsOnly_includesBy
    (each : ∀ a b, region a → other b → FailsOnly allowed (agree a b)) {table : Table Value}
    (withinToo : ∀ entry ∈ table.entries, entry.2.Within other)
    {entries : List (String × Value)} (within : ∀ entry ∈ entries, entry.2.Within region) :
    FailsOnly allowed (includesBy agree table entries) := by
  induction entries with
  | nil => exact .ok true
  | cons entry rest inductionHypothesis =>
      obtain ⟨key, value⟩ := entry
      rw [List.forall_mem_cons] at within
      rw [includesBy]
      cases found : table.get? key with
      | none => exact .ok false
      | some bound =>
          have inside : bound.Within other := withinToo (key, bound) (mem_of_get? found)
          exact (Value.failsOnly_equalBy each within.1 bound inside).andThen
            (inductionHypothesis within.2)

theorem Payload.failsOnly_equalBy
    (each : ∀ a b, region a → other b → FailsOnly allowed (agree a b)) {left right : Payload}
    (within : ∀ value ∈ left.values, value.Within region)
    (withinToo : ∀ value ∈ right.values, value.Within other) :
    FailsOnly allowed (left.equalBy agree right) := by
  cases left with
  | list xs =>
      cases right with
      | list ys =>
          rw [equalBy]
          split
          · exact Value.failsOnly_equalAllBy
              (fun x member => Value.failsOnly_equalBy each (within x member)) ys withinToo
          · exact .ok false
      | scope inner => exact .ok false
  | scope inner =>
      cases right with
      | list ys => exact .ok false
      | scope second =>
          rw [equalBy]
          split
          · exact Table.failsOnly_includesBy each
              (fun entry member => withinToo entry.2 (List.mem_map_of_mem member))
              fun entry member => within entry.2 (List.mem_map_of_mem member)
          · exact .ok false

end Comparing

/-! ## Faults of following addresses -/

section Following

variable {ν : Type} {follow : Addr → Except Fault (Tree ν)} {note : Note ν}
  {region : Addr → Prop}

theorem Value.failsOnly_unfoldBy (each : ∀ a, region a → FailsOnly allowed (follow a))
    (value : Value) (within : value.Within region) :
    FailsOnly allowed (value.unfoldBy follow) := by
  induction value with
  | scalar x => exact .ok _
  | tuple items inductionHypothesis =>
      rw [within_tuple] at within
      rw [unfoldBy, unfoldAllBy_eq_mapM]
      have parts := FailsOnly.mapM fun item member =>
        inductionHypothesis item member (within item member)
      exact parts.bind fun _ _ => .ok _
  | list a => exact each a ((within_list _ a).mp within)
  | map a => exact each a ((within_map _ a).mp within)

theorem Store.failsOnly_followPayload (notes : ∀ a inner, FailsOnly allowed (note a inner))
    (each : ∀ a, region a → FailsOnly allowed (follow a)) (a : Addr) {payload : Payload}
    (within : ∀ value ∈ payload.values, value.Within region) :
    FailsOnly allowed (followPayload note follow a payload) := by
  cases payload with
  | list items =>
      rw [followPayload, Value.unfoldAllBy_eq_mapM]
      have parts := FailsOnly.mapM fun item member =>
        Value.failsOnly_unfoldBy each item (within item member)
      exact parts.bind fun _ _ => .ok _
  | scope inner =>
      rw [followPayload, Value.unfoldEntriesBy_eq_mapM]
      refine (notes a inner).bind fun _ _ => ?_
      have parts : FailsOnly allowed (inner.bindings.entries.mapM fun entry =>
          (return (entry.1, ← entry.2.unfoldBy follow) : Except Fault (String × Tree ν))) := by
        refine .mapM fun entry member => ?_
        have bound := within entry.2 (List.mem_map_of_mem member)
        exact (Value.failsOnly_unfoldBy each entry.2 bound).bind fun _ _ => .ok _
      exact parts.bind fun _ _ => .ok _

end Following

namespace Store

variable {store : Store} {a b : Addr}

/-- Looking at storage can only find it lent out. -/
theorem failsOnly_free (store : Store) (a : Addr) : FailsOnly (· = .conflict) (store.free a) := by
  rw [free]
  split
  · exact .error rfl
  · exact .ok ()

/-- Storage that is not lent out can be looked at. -/
theorem unfailing_free (idle : store.lent = []) (a : Addr) : FailsOnly allowed (store.free a) := by
  rw [(free_eq_ok_iff store a).mpr (by simp [idle])]
  exact .ok ()

theorem failsOnly_readPayload (free : FailsOnly allowed (store.free a)) :
    FailsOnly allowed (store.readPayload a) :=
  free.bind fun _ _ => .ok _

/-- What has been read off storage holds the values of storage. -/
theorem values_of_readPayload {payload : Payload} (read : store.readPayload a = .ok payload) :
    payload.values = store.values a := by
  obtain ⟨_, _, same⟩ := bind_eq_ok read
  obtain rfl := Except.ok.inj same
  unfold values
  cases store.payloads[a]? <;> rfl

theorem within_edge {payload : Payload} (read : store.readPayload a = .ok payload) :
    ∀ value ∈ payload.values, value.Within (store.Edge a) := by
  intro value member b named
  rw [values_of_readPayload read] at member
  exact ⟨value, member, named⟩

/-- A comparison of storage that can be looked at can only run out of fuel. -/
theorem failsOnly_agreeWithin (free : ∀ a, FailsOnly allowed (store.free a))
    (endless : allowed .endless) (fuel : Nat) :
    ∀ a b, FailsOnly allowed (store.agreeWithin fuel a b) := by
  induction fuel with
  | zero => exact fun _ _ => .error endless
  | succ fuel inductionHypothesis =>
      intro a b
      rw [agreeWithin_succ]
      split
      · exact .ok true
      · refine (failsOnly_readPayload (free a)).bind fun left leftRead => ?_
        refine (failsOnly_readPayload (free b)).bind fun right rightRead => ?_
        exact Payload.failsOnly_equalBy (fun c d _ _ => inductionHypothesis c d)
          (within_edge leftRead) (within_edge rightRead)

/-- Following addresses through storage that can be looked at can only run out of fuel. -/
theorem failsOnly_followWithin {ν : Type} {note : Note ν}
    (free : ∀ a, FailsOnly allowed (store.free a)) (endless : allowed .endless)
    (notes : ∀ a inner, FailsOnly allowed (note a inner)) (fuel : Nat) :
    ∀ a, FailsOnly allowed (store.followWithin note fuel a) := by
  induction fuel with
  | zero => exact fun _ => .error endless
  | succ fuel inductionHypothesis =>
      intro a
      rw [followWithin_succ]
      refine (failsOnly_readPayload (free a)).bind fun payload read => ?_
      exact failsOnly_followPayload notes (fun b _ => inductionHypothesis b) a (within_edge read)

end Store

end ScopedValues
