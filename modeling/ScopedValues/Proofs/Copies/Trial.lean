import ScopedValues.Proofs.Copies.Renewal
import ScopedValues.Proofs.Storage.Fuel

/-!
Contract: which copies come to an end.

Owns the trial of a detachment, which follows the storage handed over without making
any, the agreement of every copy with its trial, and the fuel that a copy needs.

Main statements: a copy fails exactly as its trial does; a copy that comes to an end
with some fuel comes to the same end with as much fuel as there are payloads.
-/

set_option autoImplicit false

namespace ScopedValues

/-! ## Outcomes without answers -/

/-- Whether an outcome is a success, and otherwise which failure it is. -/
def verdict {α : Type} (outcome : Except Fault α) : Except Fault Unit :=
  outcome.map fun _ => ()

theorem exists_of_verdict {α : Type} {outcome : Except Fault α}
    (success : verdict outcome = .ok ()) : ∃ x, outcome = .ok x := by
  cases outcome with
  | error fault => cases success
  | ok x => exact ⟨x, rfl⟩

theorem forM_flatMap {α β : Type} (visit : β → Except Fault Unit) (parts : α → List β)
    (items : List α) :
    forM (items.flatMap parts) visit = forM items fun x => forM (parts x) visit := by
  induction items with
  | nil => rfl
  | cons x rest inductionHypothesis =>
      rw [List.flatMap_cons, List.forM_append, List.forM_cons, inductionHypothesis]

theorem forM_congr {β : Type} {visit other : β → Except Fault Unit} {items : List β}
    (same : ∀ x ∈ items, visit x = other x) : forM items visit = forM items other := by
  induction items with
  | nil => rfl
  | cons x rest inductionHypothesis =>
      rw [List.forall_mem_cons] at same
      rw [List.forM_cons, List.forM_cons, same.1, inductionHypothesis same.2]

theorem settles_forM {β : Type} {visit other : β → Except Fault Unit}
    (each : ∀ x, Settles (visit x) (other x)) (items : List β) :
    Settles (forM items visit) (forM items other) := by
  induction items with
  | nil => exact .refl _
  | cons x rest inductionHypothesis =>
      rw [List.forM_cons, List.forM_cons]
      exact (each x).bind fun _ => inductionHypothesis

namespace Store

/-! ## The trial of a detachment -/

/-- What comes of detaching `a` with this fuel: everything handed over is visited. -/
def trialWithin (store : Store) : Nat → Addr → Except Fault Unit
  | 0, _ => .error .endless
  | fuel + 1, a => do
      store.free a
      forM (store.handed a) (store.trialWithin fuel)

/-- What comes of detaching `a`. -/
def trial (store : Store) (a : Addr) : Except Fault Unit :=
  store.trialWithin store.size a

theorem settles_trialWithin (store : Store) (fuel : Nat) :
    ∀ a, Settles (store.trialWithin fuel a) (store.trialWithin (fuel + 1) a) := by
  induction fuel with
  | zero => exact fun _ => .endless _
  | succ fuel inductionHypothesis =>
      intro a
      rw [trialWithin, trialWithin]
      exact (Settles.refl _).bind fun _ => settles_forM inductionHypothesis _

/-- Fuel beyond the number of payloads makes no difference to a trial. -/
theorem trialWithin_eq_trial {store : Store} (typed : store.Typed) {a : Addr}
    (present : a < store.size) {fuel : Nat} (enough : store.size ≤ fuel) :
    store.trialWithin fuel a = store.trial a := by
  refine solve_eq_of_card_le (Finset.range store.size) store.trialWithin
    (settles_trialWithin store) ?_ (by simpa using enough) (by simp) a
    (Finset.mem_range.mpr present)
  intro fuel more same b _
  rw [trialWithin, trialWithin]
  rw [forM_congr fun c member =>
    same c (Finset.mem_range.mpr (typed.edge_lt (edge_of_mem_handed member)))]

/-! ## Copies and their trials -/

/-- On storage that extends `old`, `work` adds to it, and fails exactly as `trial` does. -/
def Attempts {α : Type} (old : Store) (work : StoreM α) (trial : Except Fault Unit) : Prop :=
  ∀ store, old.Extends store →
    verdict (work store) = trial ∧ ∀ x after, work store = .ok (x, after) → old.Extends after

namespace Attempts

variable {α β : Type} {old : Store}

theorem pure (x : α) : Attempts old (Pure.pure x) (.ok ()) := by
  intro store extension
  refine ⟨rfl, fun y after ok => ?_⟩
  obtain ⟨_, rfl⟩ := StoreM.pure_ok ok
  exact extension

theorem bind {work : StoreM α} {next : α → StoreM β} {first second : Except Fault Unit}
    (attempt : Attempts old work first) (attempts : ∀ x, Attempts old (next x) second) :
    Attempts old (work >>= next) (first >>= fun _ => second) := by
  intro store extension
  obtain ⟨agrees, grown⟩ := attempt store extension
  cases outcome : work store with
  | error fault =>
      have failed : (work >>= next) store = .error fault := by
        show (work store >>= fun pair => next pair.1 pair.2) = _
        rw [outcome]
        rfl
      rw [outcome] at agrees
      rw [failed, ← agrees]
      exact ⟨rfl, fun _ _ impossible => by cases impossible⟩
  | ok pair =>
      obtain ⟨x, middle⟩ := pair
      rw [outcome] at agrees
      rw [StoreM.bind_eq outcome, ← agrees]
      exact attempts x middle (grown x middle outcome)

theorem map {work : StoreM α} {trial : Except Fault Unit} (attempt : Attempts old work trial)
    (finish : α → β) : Attempts old (do return finish (← work)) trial := by
  have both := attempt.bind fun x => Attempts.pure (finish x)
  have same : (trial >>= fun _ => Except.ok ()) = trial := by cases trial <;> rfl
  rwa [same] at both

theorem mapM {work : α → StoreM β} {trial : α → Except Fault Unit} {items : List α}
    (each : ∀ x ∈ items, Attempts old (work x) (trial x)) :
    Attempts old (items.mapM work) (forM items trial) := by
  induction items with
  | nil => exact Attempts.pure []
  | cons x rest inductionHypothesis =>
      rw [List.forall_mem_cons] at each
      rw [List.mapM_cons, List.forM_cons]
      exact each.1.bind fun y => (inductionHypothesis each.2).map (y :: ·)

end Attempts

section Renew

variable {old : Store} {fresh : Addr → StoreM Addr} {trial : Addr → Except Fault Unit}
  {region : Addr → Prop}

theorem renew_attempts (attempts : ∀ a, region a → Attempts old (fresh a) (trial a))
    (value : Value) (within : value.Within region) :
    Attempts old (value.renew fresh) (forM value.addresses trial) := by
  induction value with
  | scalar x => exact Attempts.pure _
  | tuple items inductionHypothesis =>
      rw [Value.within_tuple] at within
      rw [Value.renew, renewAll_eq_mapM, Value.addresses_tuple, forM_flatMap]
      exact (Attempts.mapM fun item member =>
        inductionHypothesis item member (within item member)).map Value.tuple
  | list a =>
      have single : forM [a] trial = trial a := by simp
      rw [Value.addresses_list, single]
      exact (attempts a (within a (by simp))).map Value.list
  | map a =>
      have single : forM [a] trial = trial a := by simp
      rw [Value.addresses_map, single]
      exact (attempts a (within a (by simp))).map Value.map

theorem renewTuple_attempts (attempts : ∀ a, region a → Attempts old (fresh a) (trial a))
    (value : Value) (within : value.Within region) :
    Attempts old (value.renewTuple fresh) (forM value.handed trial) := by
  cases value with
  | scalar x => exact Attempts.pure _
  | tuple items => exact renew_attempts attempts (.tuple items) within
  | list a => exact Attempts.pure _
  | map a => exact Attempts.pure _

theorem renewTuples_attempts (attempts : ∀ a, region a → Attempts old (fresh a) (trial a))
    (payload : Payload) (within : ∀ value ∈ payload.values, value.Within region) :
    Attempts old (payload.renewTuples fresh)
      (forM (payload.values.flatMap Value.handed) trial) := by
  rw [forM_flatMap]
  cases payload with
  | list items =>
      exact (Attempts.mapM fun item member =>
        renewTuple_attempts attempts item (within item member)).map Payload.list
  | scope inner =>
      rw [Payload.values, List.forM_map]
      exact (Attempts.mapM fun entry member =>
        (renewTuple_attempts attempts entry.2
          (within entry.2 (List.mem_map_of_mem member))).map (Prod.mk entry.1)).map
            fun entries => Payload.scope { inner with bindings := ⟨entries⟩ }

end Renew

theorem allocate_attempts (old : Store) (contents : Payload) :
    Attempts old (modifyGet (·.allocate contents)) (.ok ()) := by
  intro store extension
  refine ⟨rfl, fun x after ok => ?_⟩
  cases ok
  exact extension.trans (extends_allocate store contents)

theorem detachWithin_attempts {old : Store} (typed : old.Typed) (fuel : Nat) (a : Addr)
    (present : a < old.size) :
    Attempts old (detachWithin fuel a) (old.trialWithin fuel a) := by
  induction fuel generalizing a with
  | zero =>
      intro store _
      exact ⟨rfl, fun _ _ impossible => by cases impossible⟩
  | succ fuel inductionHypothesis =>
      intro store extension
      rw [trialWithin]
      by_cases lent : a ∈ old.lent
      · have conflict : old.free a = .error .conflict := by simp [free, lent]
        rw [detachWithin_of_lent (extension.lent ▸ lent), conflict]
        exact ⟨rfl, fun _ _ impossible => by cases impossible⟩
      · have inArray : a < old.payloads.size := present
        have stored : old.payloads[a]? = some old.payloads[a] := Array.getElem?_eq_getElem inArray
        rw [detachWithin_of_free (extension.lent ▸ lent), (free_eq_ok_iff old a).mpr lent,
          extension.payload stored, Option.getD_some, handed, values_of_payload stored]
        have within : ∀ value ∈ old.payloads[a].values, value.Within (· < old.size) := by
          intro value member
          exact (typed.held a value (by rwa [values_of_payload stored])).within
        have contents := (renewTuples_attempts inductionHypothesis _ within).bind fun made =>
          allocate_attempts old made
        have same : ∀ trial : Except Fault Unit, (trial >>= fun _ => Except.ok ()) = trial := by
          intro trial
          cases trial <;> rfl
        rw [same] at contents
        exact contents store extension

/-! ## The fuel of a copy -/

/-- More fuel changes nothing about work that came to an end. -/
def SettlesWork {α : Type} (work more : StoreM α) : Prop :=
  ∀ store, Settles (work store) (more store)

namespace SettlesWork

variable {α β : Type}

theorem refl (work : StoreM α) : SettlesWork work work :=
  fun store => .refl (work store)

theorem bind {work more : StoreM α} {next after : α → StoreM β} (first : SettlesWork work more)
    (rest : ∀ x, SettlesWork (next x) (after x)) :
    SettlesWork (work >>= next) (more >>= after) :=
  fun store => (first store).bind fun pair => rest pair.1 pair.2

theorem mapM {work more : α → StoreM β} {items : List α}
    (each : ∀ x ∈ items, SettlesWork (work x) (more x)) :
    SettlesWork (items.mapM work) (items.mapM more) := by
  induction items with
  | nil => exact .refl _
  | cons x rest inductionHypothesis =>
      rw [List.forall_mem_cons] at each
      rw [List.mapM_cons, List.mapM_cons]
      exact each.1.bind fun _ => (inductionHypothesis each.2).bind fun _ => .refl _

end SettlesWork

section More

variable {fresh more : Addr → StoreM Addr}

theorem settles_renew (each : ∀ a, SettlesWork (fresh a) (more a)) (value : Value) :
    SettlesWork (value.renew fresh) (value.renew more) := by
  induction value with
  | scalar x => exact .refl _
  | tuple items inductionHypothesis =>
      rw [Value.renew, Value.renew, renewAll_eq_mapM, renewAll_eq_mapM]
      exact (SettlesWork.mapM inductionHypothesis).bind fun _ => .refl _
  | list a => exact (each a).bind fun _ => .refl _
  | map a => exact (each a).bind fun _ => .refl _

theorem settles_renewTuple (each : ∀ a, SettlesWork (fresh a) (more a)) (value : Value) :
    SettlesWork (value.renewTuple fresh) (value.renewTuple more) := by
  cases value with
  | scalar x => exact .refl _
  | tuple items => exact settles_renew each (.tuple items)
  | list a => exact .refl _
  | map a => exact .refl _

theorem settles_renewTuples (each : ∀ a, SettlesWork (fresh a) (more a)) (payload : Payload) :
    SettlesWork (payload.renewTuples fresh) (payload.renewTuples more) := by
  cases payload with
  | list items =>
      exact (SettlesWork.mapM fun item _ => settles_renewTuple each item).bind fun _ => .refl _
  | scope inner =>
      exact (SettlesWork.mapM fun entry _ =>
        (settles_renewTuple each entry.2).bind fun _ => .refl _).bind fun _ => .refl _

end More

theorem settles_detachWithin (fuel : Nat) :
    ∀ a, SettlesWork (detachWithin fuel a) (detachWithin (fuel + 1) a) := by
  induction fuel with
  | zero => exact fun _ _ => .endless _
  | succ fuel inductionHypothesis =>
      intro a store
      by_cases lent : a ∈ store.lent
      · rw [detachWithin_of_lent lent, detachWithin_of_lent lent]
        exact .refl _
      · rw [detachWithin_of_free lent, detachWithin_of_free lent]
        exact (settles_renewTuples inductionHypothesis _).bind (fun _ => .refl _) store

theorem settles_detachWithin_of_le {fuel more : Nat} (le : fuel ≤ more) (a : Addr) :
    SettlesWork (detachWithin fuel a) (detachWithin more a) :=
  fun store => settles_of_le (fun fuel (pair : Addr × Store) => detachWithin fuel pair.1 pair.2)
    (fun fuel pair => settles_detachWithin fuel pair.1 pair.2) le (a, store)

end Store

end ScopedValues
