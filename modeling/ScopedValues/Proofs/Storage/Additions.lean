import ScopedValues.Proofs.Copies.Renewal
import ScopedValues.Proofs.Storage.Operations

/-!
Contract: work that only adds to storage.

Owns the rules for putting such work together, and the operations that are such work.

Main statement: making copies, reading an element and making a list of a tuple leave every
payload that was there as it was, whatever storage they begin with.

Does not own what the copies are like.
-/

set_option autoImplicit false

namespace ScopedValues.Store

variable {α β : Type}

/-- Work that leaves every payload that was there as it was, whenever it succeeds. -/
def Adds (store : Store) (outcome : Except Fault (α × Store)) : Prop :=
  ∀ x after, outcome = .ok (x, after) → store.Extends after

namespace Adds

variable {store : Store}

theorem ok (x : α) {after : Store} (extension : store.Extends after) :
    store.Adds (.ok (x, after)) := by
  intro _ _ same
  cases same
  exact extension

theorem done (x : α) : store.Adds (.ok (x, store)) :=
  .ok x (.refl store)

theorem error (fault : Fault) : store.Adds (.error fault : Except Fault (α × Store)) := by
  intro _ _ impossible
  cases impossible

theorem ask {question : Except Fault α} {next : α → Except Fault (β × Store)}
    (rest : ∀ x, store.Adds (next x)) : store.Adds (question >>= next) := by
  intro y after done
  obtain ⟨x, _, done⟩ := bind_eq_ok done
  exact rest x y after done

theorem bind {outcome : Except Fault (α × Store)} {next : α × Store → Except Fault (β × Store)}
    (first : store.Adds outcome) (rest : ∀ x (later : Store), later.Adds (next (x, later))) :
    store.Adds (outcome >>= next) := by
  intro y after done
  obtain ⟨⟨x, later⟩, worked, done⟩ := bind_eq_ok done
  exact (first x later worked).trans (rest x later y after done)

theorem mapM {work : α → StoreM β} {items : List α}
    (each : ∀ x ∈ items, ∀ later : Store, later.Adds (work x later)) :
    store.Adds (items.mapM work store) := by
  induction items generalizing store with
  | nil => exact .done []
  | cons x rest inductionHypothesis =>
      rw [List.forall_mem_cons] at each
      rw [List.mapM_cons]
      refine (each.1 store).bind fun y later => ?_
      exact (@inductionHypothesis later each.2).bind fun ys last => .done (y :: ys)

end Adds

/-! ## Copies -/

section Copies

variable {fresh : Addr → StoreM Addr}

theorem adds_renew (each : ∀ a (store : Store), store.Adds (fresh a store)) (value : Value) :
    ∀ store : Store, store.Adds (value.renew fresh store) := by
  induction value with
  | scalar x => exact fun store => .done _
  | tuple items inductionHypothesis =>
      intro store
      rw [Value.renew, renewAll_eq_mapM]
      exact (Adds.mapM inductionHypothesis).bind fun copies later => .done _
  | list a => exact fun store => (each a store).bind fun b later => .done _
  | map a => exact fun store => (each a store).bind fun b later => .done _

theorem adds_renewTuple (each : ∀ a (store : Store), store.Adds (fresh a store)) (value : Value)
    (store : Store) : store.Adds (value.renewTuple fresh store) := by
  cases value with
  | tuple items => exact adds_renew each (.tuple items) store
  | _ => exact .done _

theorem adds_renewTuples (each : ∀ a (store : Store), store.Adds (fresh a store))
    (payload : Payload) (store : Store) : store.Adds (payload.renewTuples fresh store) := by
  cases payload with
  | list items =>
      exact (Adds.mapM fun item _ => adds_renewTuple each item).bind fun copies later => .done _
  | scope inner =>
      refine (Adds.mapM fun entry _ later => ?_).bind fun entries later => .done _
      exact (adds_renewTuple each entry.2 later).bind fun copy last => .done _

theorem adds_detachWithin (fuel : Nat) :
    ∀ a (store : Store), store.Adds (detachWithin fuel a store) := by
  induction fuel with
  | zero => exact fun a store => .error _
  | succ fuel inductionHypothesis =>
      intro a store b after done
      obtain ⟨_, contents, middle, renewed, rfl, rfl⟩ := detachWithin_ok done
      have copied := adds_renewTuples inductionHypothesis _ store contents middle renewed
      exact copied.trans (extends_allocate middle contents)

variable (store : Store)

theorem adds_copy (value : Value) : store.Adds (store.copy value) :=
  adds_renewTuple (adds_detachWithin store.size) value store

theorem adds_deepCopy (value : Value) : store.Adds (store.deepCopy value) :=
  adds_renew (adds_detachWithin store.size) value store

theorem adds_deepCopyAll (values : List Value) : store.Adds (store.deepCopyAll values) := by
  rw [deepCopyAll, renewAll_eq_mapM]
  exact .mapM fun value _ => adds_renew (adds_detachWithin store.size) value

theorem adds_detach (a : Addr) : store.Adds (store.detach a) :=
  adds_detachWithin store.size a store

/-! ## Lists -/

theorem adds_listOfTuple (value : Value) : store.Adds (store.listOfTuple value) := by
  cases value with
  | tuple items =>
      refine (store.adds_deepCopyAll items).bind fun fresh later => ?_
      exact .ok _ (extends_allocate later (.list fresh))
  | _ => exact .error _

theorem adds_getItem (a : Addr) (index : Index) : store.Adds (store.getItem a index) :=
  .ask fun _ => .ask fun _ => store.adds_copy _

end Copies

end ScopedValues.Store
