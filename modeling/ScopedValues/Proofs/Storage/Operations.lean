import ScopedValues.Cursor
import ScopedValues.Proofs.Copies.Sharing
import ScopedValues.Proofs.Scopes.Chain
import ScopedValues.Store.List

/-!
Contract: what every operation on storage keeps.

Owns the development of sound storage and the law of each operation on lists, scopes
and cursors: what it answers is held by what it leaves.

Does not own what an operation answers beyond that.
-/

set_option autoImplicit false

namespace ScopedValues

theorem bind_eq_ok {α β : Type} {first : Except Fault α} {next : α → Except Fault β} {y : β}
    (ok : (first >>= next) = .ok y) : ∃ x, first = .ok x ∧ next x = .ok y := by
  cases first with
  | error fault => cases ok
  | ok x => exact ⟨x, rfl, ok⟩

namespace Store

theorem Sound.entry_held {store : Store} (sound : store.Sound) (a : Addr) :
    ∀ entry ∈ (store.scope a).bindings.entries, entry.2.Held store :=
  fun _ member => sound.held a _ (mem_values_of_mem_bindings member)

/-! ## Development -/

/-- `after` is sound and has grown out of `before`. -/
structure Develops (before after : Store) : Prop where
  sound : after.Sound
  grows : before.Grows after

theorem Develops.refl {store : Store} (sound : store.Sound) : store.Develops store :=
  ⟨sound, .refl store⟩

theorem Develops.trans {before middle after : Store} (first : before.Develops middle)
    (second : middle.Develops after) : before.Develops after :=
  ⟨second.sound, first.grows.trans second.grows⟩

/-- When it comes to an answer, work on `store` leaves sound storage and `result` of it. -/
def Keeps {α : Type} (store : Store) (outcome : Except Fault (α × Store))
    (result : α → Store → Prop) : Prop :=
  ∀ x after, outcome = .ok (x, after) → store.Develops after ∧ result x after

namespace Keeps

variable {α β : Type} {store : Store} {result : β → Store → Prop}

theorem ok {x : β} {after : Store} (develops : store.Develops after) (holds : result x after) :
    store.Keeps (.ok (x, after)) result := by
  intro y last same
  cases same
  exact ⟨develops, holds⟩

theorem error (fault : Fault) : store.Keeps (.error fault) result := by
  intro _ _ impossible
  cases impossible

theorem ask {question : Except Fault α} {next : α → Except Fault (β × Store)}
    (rest : ∀ x, question = .ok x → store.Keeps (next x) result) :
    store.Keeps (question >>= next) result := by
  intro y after ok
  obtain ⟨x, asked, ok⟩ := bind_eq_ok ok
  exact rest x asked y after ok

theorem bind {outcome : Except Fault (α × Store)} {middle : α → Store → Prop}
    {next : α × Store → Except Fault (β × Store)} (first : store.Keeps outcome middle)
    (rest : ∀ x later, store.Develops later → middle x later →
      later.Keeps (next (x, later)) result) :
    store.Keeps (outcome >>= next) result := by
  intro y after ok
  obtain ⟨⟨x, later⟩, done, ok⟩ := bind_eq_ok ok
  obtain ⟨develops, holds⟩ := first x later done
  obtain ⟨further, last⟩ := rest x later develops holds y after ok
  exact ⟨develops.trans further, last⟩

end Keeps

variable {store : Store}

/-! ## Copies -/

theorem keeps_run (sound : store.Sound) (mode : CopyMode) {value : Value}
    (held : value.Held store) :
    store.Keeps (mode.run store value) fun copy after => copy.Held after := by
  intro copy after ran
  obtain ⟨renewal, copied⟩ := CopyMode.run_ok sound.toTyped held mode ran
  exact ⟨⟨renewal.sound sound, renewal.extension.grows⟩, copied.held renewal.extension held⟩

theorem keeps_copy (sound : store.Sound) {value : Value} (held : value.Held store) :
    store.Keeps (store.copy value) fun copy after => copy.Held after :=
  keeps_run sound .plain held

theorem keeps_deepCopy (sound : store.Sound) {value : Value} (held : value.Held store) :
    store.Keeps (store.deepCopy value) fun copy after => copy.Held after :=
  keeps_run sound .deep held

/-- A deep copy of several values is the deep copy of the tuple of them. -/
theorem deepCopy_tuple (store : Store) (items : List Value) :
    store.deepCopy (.tuple items) =
      (store.deepCopyAll items).map fun copied => (Value.tuple copied.1, copied.2) := by
  change (Value.renewAll (detachWithin store.size) items >>= fun copies =>
    pure (Value.tuple copies) : StoreM Value) store = _
  change (store.deepCopyAll items >>= fun copied => Except.ok (Value.tuple copied.1, copied.2)) = _
  cases store.deepCopyAll items <;> rfl

theorem keeps_deepCopyAll (sound : store.Sound) {values : List Value}
    (held : ∀ value ∈ values, value.Held store) :
    store.Keeps (store.deepCopyAll values) fun copies after =>
      ∀ copy ∈ copies, copy.Held after := by
  intro copies after ok
  have whole : store.deepCopy (.tuple values) = .ok (.tuple copies, after) := by
    rw [deepCopy_tuple, ok]
    rfl
  obtain ⟨develops, kept⟩ :=
    keeps_deepCopy sound ((Value.held_tuple store values).mpr held) _ _ whole
  exact ⟨develops, (Value.held_tuple after copies).mp kept⟩

theorem deepCopy_list (store : Store) (a : Addr) :
    store.deepCopy (.list a) =
      (store.detach a).map fun detached => (Value.list detached.1, detached.2) := by
  change (store.detach a >>= fun detached => Except.ok (Value.list detached.1, detached.2)) = _
  cases store.detach a <;> rfl

theorem deepCopy_map (store : Store) (a : Addr) :
    store.deepCopy (.map a) =
      (store.detach a).map fun detached => (Value.map detached.1, detached.2) := by
  change (store.detach a >>= fun detached => Except.ok (Value.map detached.1, detached.2)) = _
  cases store.detach a <;> rfl

/-- To detach an address is to make a deep copy of the handle that it has. -/
theorem detach_eq_ok {a b : Addr} {after : Store} (kind : store.IsList a ∨ store.IsScope a)
    (done : store.detach a = .ok (b, after)) :
    ∃ value copy, value.Held store ∧ value.addresses = [a] ∧ copy.addresses = [b] ∧
      store.deepCopy value = .ok (copy, after) := by
  rcases kind with isList | isScope
  · refine ⟨.list a, .list b, (Value.held_list store a).mpr isList, rfl, rfl, ?_⟩
    rw [deepCopy_list, done]
    rfl
  · refine ⟨.map a, .map b, (Value.held_map store a).mpr isScope, rfl, rfl, ?_⟩
    rw [deepCopy_map, done]
    rfl

theorem keeps_detach_list (sound : store.Sound) {a : Addr} (isList : store.IsList a) :
    store.Keeps (store.detach a) fun copy after => after.IsList copy := by
  intro copy after ok
  have whole : store.deepCopy (.list a) = .ok (.list copy, after) := by
    rw [deepCopy_list, ok]
    rfl
  obtain ⟨develops, held⟩ := keeps_deepCopy sound ((Value.held_list store a).mpr isList) _ _ whole
  exact ⟨develops, (Value.held_list after copy).mp held⟩

theorem keeps_detach_map (sound : store.Sound) {a : Addr} (isScope : store.IsScope a) :
    store.Keeps (store.detach a) fun copy after => after.IsScope copy := by
  intro copy after ok
  have whole : store.deepCopy (.map a) = .ok (.map copy, after) := by
    rw [deepCopy_map, ok]
    rfl
  obtain ⟨develops, held⟩ := keeps_deepCopy sound ((Value.held_map store a).mpr isScope) _ _ whole
  exact ⟨develops, (Value.held_map after copy).mp held⟩

end Store

end ScopedValues
