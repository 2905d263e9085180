import ScopedValues.Proofs.Storage.Sound

/-!
Contract: storage that has been added to and not written.

Owns extension, its effect on what is read, and the addresses that an extension adds.

Main statements: what was there reads as before, and a held value stays held.
-/

set_option autoImplicit false

namespace ScopedValues.Store

/-- Every payload of `before` is in `after` as it was; what `after` adds comes behind. -/
structure Extends (before after : Store) : Prop where
  size : before.size ≤ after.size
  old : ∀ a, a < before.size → after.payloads[a]? = before.payloads[a]?
  lent : after.lent = before.lent

theorem Extends.refl (store : Store) : Extends store store :=
  ⟨Nat.le_refl _, fun _ _ => rfl, rfl⟩

theorem Extends.trans {before middle after : Store} (first : Extends before middle)
    (second : Extends middle after) : Extends before after where
  size := Nat.le_trans first.size second.size
  old a present :=
    (second.old a (Nat.lt_of_lt_of_le present first.size)).trans (first.old a present)
  lent := second.lent.trans first.lent

theorem extends_allocate (store : Store) (payload : Payload) :
    store.Extends (store.allocate payload).2 where
  size := by simp
  old := payload_allocate_of_lt store payload
  lent := rfl

section Reading

variable {before after : Store} {a : Addr}

theorem Extends.payload (extension : before.Extends after) {payload : Payload}
    (stored : before.payloads[a]? = some payload) : after.payloads[a]? = some payload := by
  rw [extension.old a (Array.getElem?_eq_some_iff.mp stored).1, stored]

theorem Extends.scope_eq (extension : before.Extends after) (present : a < before.size) :
    after.scope a = before.scope a := by
  simp only [scope, extension.old a present]

theorem Extends.values_eq (extension : before.Extends after) (present : a < before.size) :
    after.values a = before.values a :=
  values_eq_of_payload (extension.old a present)

theorem Extends.grows (extension : before.Extends after) : before.Grows after where
  size := extension.size
  lists _ isList := ⟨_, extension.payload isList.payload_eq⟩
  scopes _ isScope := ⟨_, extension.payload isScope.payload_eq⟩
  parents _ isScope := by rw [extension.scope_eq isScope.lt_size]
  lent := extension.lent

end Reading

/-! ## Added addresses -/

/-- The addresses that `after` has and `before` has not, oldest first. -/
def added (before after : Store) : List Addr :=
  List.range' before.size (after.size - before.size)

@[simp] theorem added_self (store : Store) : added store store = [] := by
  simp [added]

theorem mem_added {before after : Store} {a : Nat} :
    a ∈ added before after ↔ before.size ≤ a ∧ a < after.size := by
  simp only [added, List.mem_range'_1]
  omega

theorem nodup_added (before after : Store) : (added before after).Nodup :=
  List.nodup_range'

theorem added_append {before middle after : Store} (first : before.size ≤ middle.size)
    (second : middle.size ≤ after.size) :
    added before middle ++ added middle after = added before after := by
  have start : middle.size = before.size + 1 * (middle.size - before.size) := by omega
  have count : after.size - before.size =
      (middle.size - before.size) + (after.size - middle.size) := by omega
  rw [added, added, added, count, ← List.range'_append]
  rw [← start]

end ScopedValues.Store
