import ScopedValues.Proofs.Copies.Trial

/-!
Contract: what a copy has of its own and what it shares.

Owns the two copies as one operation with a mode, the exact line between fresh and
shared storage, and the independence of the result from the fuel.

Main statement: a copy that comes to an end changes no payload, is related to its
source by the copy discipline, and has on its tuple spine nothing but addresses that
it allocated itself, each of them once.

Storage is only assumed to be typed: every handle stands for a payload of its kind.
-/

set_option autoImplicit false

namespace ScopedValues

open Store

namespace CopyMode

/-- Copies a value in this mode, with `fresh` detaching one address. -/
def renew (mode : CopyMode) (fresh : Addr → StoreM Addr) (value : Value) : StoreM Value :=
  match mode with
  | .plain => value.renewTuple fresh
  | .deep => value.renew fresh

/-- The copy of a value in this mode. -/
def run (mode : CopyMode) (store : Store) (value : Value) : Except Fault (Value × Store) :=
  match mode with
  | .plain => store.copy value
  | .deep => store.deepCopy value

theorem run_eq_renew (mode : CopyMode) (store : Store) (value : Value) :
    mode.run store value = mode.renew (detachWithin store.size) value store := by
  cases mode <;> rfl

section Fuel

variable {store : Store} {value : Value}

theorem renew_copies (typed : store.Typed) (held : value.Held store) (mode : CopyMode)
    (fuel : Nat) : Copies store mode (mode.renew (detachWithin fuel) value) value := by
  cases mode with
  | plain => exact renewTuple_copies (detaches_detachWithin typed fuel) value held
  | deep => exact Store.renew_copies (detaches_detachWithin typed fuel) value held

theorem run_ok (typed : store.Typed) (held : value.Held store) (mode : CopyMode) {copy : Value}
    {after : Store} (ran : mode.run store value = .ok (copy, after)) :
    store.Renewal after (mode.renewed copy) ∧ Copied store after mode value copy := by
  rw [run_eq_renew] at ran
  exact renew_copies typed held mode store.size store copy after (.refl store) ran

theorem renew_attempts (typed : store.Typed) (held : value.Held store) (mode : CopyMode)
    (fuel : Nat) :
    Attempts store (mode.renew (detachWithin fuel) value)
      (forM (mode.renewed value) (store.trialWithin fuel)) := by
  have each := detachWithin_attempts typed fuel
  cases mode with
  | plain => exact renewTuple_attempts each value held.within
  | deep => exact Store.renew_attempts each value held.within

theorem settles_renew {fresh more : Addr → StoreM Addr}
    (each : ∀ a, SettlesWork (fresh a) (more a)) (mode : CopyMode) (value : Value) :
    SettlesWork (mode.renew fresh value) (mode.renew more value) := by
  cases mode with
  | plain => exact settles_renewTuple each value
  | deep => exact Store.settles_renew each value

theorem renewed_lt (held : value.Held store) (mode : CopyMode) :
    ∀ a ∈ mode.renewed value, a < store.size := by
  intro a member
  refine held.within a ?_
  cases mode with
  | deep => exact member
  | plain => exact value.handed_subset member

/-- The outcome of a copy, short of its answer, is that of the trials of what it renews. -/
theorem verdict_run (typed : store.Typed) (held : value.Held store) (mode : CopyMode) :
    verdict (mode.run store value) = forM (mode.renewed value) store.trial := by
  rw [run_eq_renew]
  exact (renew_attempts typed held mode store.size store (.refl store)).1

/-- A copy that comes to an end with any fuel does so with the fuel that it is given. -/
theorem run_of_renew (typed : store.Typed) (held : value.Held store) {mode : CopyMode}
    {fuel : Nat} {result : Value × Store}
    (ends : mode.renew (detachWithin fuel) value store = .ok result) :
    mode.run store value = .ok result := by
  rw [run_eq_renew]
  rcases Nat.le_total fuel store.size with less | more
  · exact (settles_renew (settles_detachWithin_of_le less) mode value store).eq_of_ok ends
  · have attempt := (renew_attempts typed held mode fuel store (.refl store)).1
    have success : verdict (mode.run store value) = .ok () := by
      rw [verdict_run typed held, ← forM_congr fun a member =>
        trialWithin_eq_trial typed (renewed_lt held mode a member) more, ← attempt, ends]
      rfl
    obtain ⟨other, done⟩ := exists_of_verdict success
    rw [run_eq_renew] at done
    have same := (settles_renew (settles_detachWithin_of_le more) mode value store).eq_of_ok done
    rw [done, ← same, ends]

/-- A copy that can be made can be made again once storage has been added to. -/
theorem run_again {before : Store} (typed : before.Typed) (held : value.Held before)
    (mode : CopyMode) (extension : before.Extends store)
    (made : ∃ made, mode.run before value = .ok made) :
    ∃ copy after, mode.run store value = .ok (copy, after) ∧ store.Extends after ∧
      Copied before after mode value copy := by
  have trial : forM (mode.renewed value) before.trial = .ok () := by
    obtain ⟨made, done⟩ := made
    rw [← verdict_run typed held, done]
    rfl
  have succeeds : verdict (mode.run store value) = .ok () := by
    rw [run_eq_renew, (renew_attempts typed held mode store.size store extension).1, ← trial]
    exact forM_congr fun a member =>
      trialWithin_eq_trial typed (renewed_lt held mode a member) extension.size
  obtain ⟨⟨copy, after⟩, copied⟩ := exists_of_verdict succeeds
  obtain ⟨renewal, related⟩ := renew_copies typed held mode store.size store copy after extension
    ((run_eq_renew mode store value).symm.trans copied)
  exact ⟨copy, after, copied, renewal.extension, related⟩

end Fuel

end CopyMode

namespace Store

theorem NamesOnce.nodup {before after : Store} {names : List Addr}
    (once : NamesOnce before after names) : names.Nodup :=
  (List.nodup_append.mp (once.nodup_iff.mpr (nodup_added before after))).1

theorem NamesOnce.mem_added {before after : Store} {names : List Addr}
    (once : NamesOnce before after names) : ∀ a ∈ names, a ∈ added before after :=
  fun _ member => once.subset (List.mem_append_left _ member)

/-- What `copy` has of its own in `after`, and what it shares with `value`. -/
structure Sharing (before after : Store) (mode : CopyMode) (value copy : Value) : Prop where
  /-- No payload that was there has changed. -/
  unchanged : before.Extends after
  tag : copy.tag = value.tag
  copied : Copied before after mode value copy
  /-- What the copy renews, it renews with storage that was not there. -/
  fresh : ∀ a ∈ mode.renewed copy, before.size ≤ a ∧ a < after.size
  /-- Two positions of the copy never stand for one payload. -/
  distinct : (mode.renewed copy).Nodup
  /-- Every payload that was added belongs to one position of the copy or to one of a
  tuple in added storage. -/
  once : NamesOnce before after (mode.renewed copy)
  /-- The plain copy of a list or map is the same handle and adds nothing. -/
  handle : mode = .plain → (∀ items, value ≠ .tuple items) → copy = value ∧ after = before

theorem sharing_of_renewal {before after : Store} {mode : CopyMode} {value copy : Value}
    (renewal : before.Renewal after (mode.renewed copy))
    (copied : Copied before after mode value copy)
    (handle : mode = .plain → (∀ items, value ≠ .tuple items) → copy = value ∧ after = before) :
    Sharing before after mode value copy where
  unchanged := renewal.extension
  tag := copied.tag_eq
  copied := copied
  fresh a member := mem_added.mp (renewal.once.mem_added a member)
  distinct := renewal.once.nodup
  once := renewal.once
  handle := handle

theorem renewTuple_of_not_tuple {fresh : Addr → StoreM Addr} {store after : Store}
    {value copy : Value} (single : ∀ items, value ≠ .tuple items)
    (ok : value.renewTuple fresh store = .ok (copy, after)) : copy = value ∧ after = store := by
  cases value with
  | tuple items => exact absurd rfl (single items)
  | scalar x => exact StoreM.pure_ok ok
  | list a => exact StoreM.pure_ok ok
  | map a => exact StoreM.pure_ok ok

/--
A copy that comes to an end, with whatever fuel, is the copy that is given, and it
shares with its source exactly what the discipline says.
-/
theorem copy_shares (store : Store) (typed : store.Typed) (mode : CopyMode) (value : Value)
    (held : value.Held store) (fuel : Nat) (copy : Value) (after : Store)
    (ends : mode.renew (detachWithin fuel) value store = .ok (copy, after)) :
    mode.run store value = .ok (copy, after) ∧ Sharing store after mode value copy := by
  refine ⟨CopyMode.run_of_renew typed held ends, ?_⟩
  obtain ⟨renewal, copied⟩ :=
    CopyMode.renew_copies typed held mode fuel store copy after (.refl store) ends
  apply sharing_of_renewal renewal copied
  intro same single
  subst same
  exact renewTuple_of_not_tuple single ends

/-- A map, a list that holds it and a tuple with it, and the map bound in itself. -/
def entwined : Store where
  payloads := #[
    .scope ⟨⟨[("self", .map 0), ("pair", .tuple [.list 1, .scalar .none])]⟩, none⟩,
    .list [.map 0, .tuple [.scalar .none]]]

theorem entwined_typed : entwined.Typed where
  held
    | 0, value, member => by
        have here : entwined.values 0 = [.map 0, .tuple [.list 1, .scalar .none]] := rfl
        rw [here] at member
        rcases List.mem_pair.mp member with rfl | rfl
        · simp [IsScope, entwined]
        · simp [IsList, entwined]
    | 1, value, member => by
        have here : entwined.values 1 = [.map 0, .tuple [.scalar .none]] := rfl
        rw [here] at member
        rcases List.mem_pair.mp member with rfl | rfl
        · simp [IsScope, entwined]
        · simp
    | _ + 2, value, member => by cases member

/-- Two aliases of a map in one tuple have storage of their own in its copy. -/
theorem copy_shares_entwined :
    ∃ after,
      CopyMode.run .plain entwined (.tuple [.map 0, .map 0]) =
          .ok (.tuple [.map 3, .map 5], after) ∧
        Sharing entwined after .plain (.tuple [.map 0, .map 0]) (.tuple [.map 3, .map 5]) :=
  ⟨_, copy_shares entwined entwined_typed .plain (.tuple [.map 0, .map 0])
    (by simp [IsScope, entwined]) 2 (.tuple [.map 3, .map 5]) _ rfl⟩

end Store

end ScopedValues
