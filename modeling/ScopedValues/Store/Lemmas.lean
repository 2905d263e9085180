import ScopedValues.Store.Basic

/-!
Contract: what each change of storage does to the payloads that are read back.

Main statements: a new payload comes after all others and disturbs none; a write is
seen at its own address and nowhere else; no write changes a parent; lending and
taking back leave every payload as it is.
-/

set_option autoImplicit false

namespace ScopedValues.Store

/-! ## New payloads -/

@[simp] theorem size_allocate (store : Store) (payload : Payload) :
    (store.allocate payload).2.size = store.size + 1 := by
  simp [allocate, size]

theorem payload_allocate_self (store : Store) (payload : Payload) :
    (store.allocate payload).2.payloads[(store.allocate payload).1]? = some payload := by
  simp [allocate, size]

theorem payload_allocate_of_lt (store : Store) (payload : Payload) (a : Addr)
    (old : a < store.size) :
    (store.allocate payload).2.payloads[a]? = store.payloads[a]? := by
  have present : a < store.payloads.size := old
  simp [allocate, Array.getElem?_push, Nat.ne_of_lt present]

theorem scope_allocate_of_lt (store : Store) (payload : Payload) (a : Addr)
    (old : a < store.size) : (store.allocate payload).2.scope a = store.scope a := by
  simp only [scope, payload_allocate_of_lt store payload a old]

/-! ## Writes -/

@[simp] theorem size_setItems (store : Store) (a : Addr) (changed : List Value) :
    (store.setItems a changed).size = store.size := by
  simp [setItems, size]

@[simp] theorem size_setBindings (store : Store) (a : Addr) (changed : Table Value) :
    (store.setBindings a changed).size = store.size := by
  simp [setBindings, size]

theorem payload_setItems_of_ne (store : Store) (a b : Addr) (changed : List Value)
    (different : b ≠ a) :
    (store.setItems a changed).payloads[b]? = store.payloads[b]? := by
  simp [setItems, Ne.symm different]

theorem payload_setBindings_of_ne (store : Store) (a b : Addr) (changed : Table Value)
    (different : b ≠ a) :
    (store.setBindings a changed).payloads[b]? = store.payloads[b]? := by
  simp [setBindings, Ne.symm different]

theorem scope_setBindings_self (store : Store) (a : Addr) (changed : Table Value)
    (present : a < store.size) :
    (store.setBindings a changed).scope a = ⟨changed, (store.scope a).parent⟩ := by
  have inBounds : a < store.payloads.size := present
  simp [scope, setBindings, inBounds]

theorem scope_setBindings_of_ne (store : Store) (a b : Addr) (changed : Table Value)
    (different : b ≠ a) : (store.setBindings a changed).scope b = store.scope b := by
  simp only [scope, payload_setBindings_of_ne store a b changed different]

/-- A write of bindings changes no parent, at its own address or elsewhere. -/
theorem parent_setBindings (store : Store) (a b : Addr) (changed : Table Value) :
    ((store.setBindings a changed).scope b).parent = (store.scope b).parent := by
  by_cases same : b = a
  · subst same
    by_cases present : b < store.size
    · rw [scope_setBindings_self store b changed present]
    · have absent : store.payloads.size ≤ b := Nat.le_of_not_lt present
      simp [scope, setBindings, absent]
  · rw [scope_setBindings_of_ne store a b changed same]

/-! ## Lending -/

@[simp] theorem payloads_lend (store : Store) (a : Addr) :
    (store.lend a).payloads = store.payloads := rfl

theorem free_eq_ok_iff (store : Store) (a : Addr) :
    store.free a = .ok () ↔ a ∉ store.lent := by
  simp [free]

/-- Storage can be read exactly while it is not lent out. -/
theorem readScope_eq (store : Store) (a : Addr) :
    store.readScope a = if a ∈ store.lent then .error .conflict else .ok (store.scope a) := by
  by_cases held : a ∈ store.lent <;>
    simp [readScope, free, held, bind, Except.bind]

theorem readList_eq (store : Store) (a : Addr) :
    store.readList a = if a ∈ store.lent then .error .conflict else .ok (store.items a) := by
  by_cases held : a ∈ store.lent <;>
    simp [readList, free, held, bind, Except.bind]

end ScopedValues.Store
