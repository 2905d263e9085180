import ScopedValues.Proofs.Storage.Addresses
import ScopedValues.Table.Lemmas

/-!
Contract: storage in which every address means what it says.

Owns what it is for a value to be held by storage, the invariant of storage, and the
order in which storage develops, with the effect on both of adding a payload and of
writing one.

Main statements: a new payload and a write that fit the storage keep it sound, and
storage that has developed further still holds what it held.
-/

set_option autoImplicit false

namespace ScopedValues

namespace Store

def IsList (store : Store) (a : Addr) : Prop :=
  ∃ items, store.payloads[a]? = some (.list items)

def IsScope (store : Store) (a : Addr) : Prop :=
  ∃ inner, store.payloads[a]? = some (.scope inner)

end Store

/-! ## Held values -/

namespace Value

mutual

/-- Every address that is reached through tuples stands for a payload of its kind. -/
def Held (store : Store) : Value → Prop
  | .scalar _ => True
  | .tuple items => HeldAll store items
  | .list a => store.IsList a
  | .map a => store.IsScope a
termination_by structural value => value

def HeldAll (store : Store) : List Value → Prop
  | [] => True
  | item :: rest => Held store item ∧ HeldAll store rest
termination_by structural items => items

end

theorem heldAll_iff (store : Store) (items : List Value) :
    HeldAll store items ↔ ∀ item ∈ items, item.Held store := by
  induction items with
  | nil => simp [HeldAll]
  | cons item rest inductionHypothesis => simp [HeldAll, inductionHypothesis]

@[simp] theorem held_scalar (store : Store) (x : Scalar) : (Value.scalar x).Held store := by
  simp [Held]

@[simp] theorem held_list (store : Store) (a : Addr) :
    (Value.list a).Held store ↔ store.IsList a := by
  simp [Held]

@[simp] theorem held_map (store : Store) (a : Addr) :
    (Value.map a).Held store ↔ store.IsScope a := by
  simp [Held]

@[simp] theorem held_tuple (store : Store) (items : List Value) :
    (Value.tuple items).Held store ↔ ∀ item ∈ items, item.Held store := by
  rw [Held, heldAll_iff]

@[simp] theorem held_none (store : Store) : Value.none.Held store :=
  held_scalar store .none

end Value

namespace Store

theorem IsList.lt_size {store : Store} {a : Addr} (isList : store.IsList a) : a < store.size := by
  obtain ⟨items, stored⟩ := isList
  exact (Array.getElem?_eq_some_iff.mp stored).1

theorem IsScope.lt_size {store : Store} {a : Addr} (isScope : store.IsScope a) :
    a < store.size := by
  obtain ⟨inner, stored⟩ := isScope
  exact (Array.getElem?_eq_some_iff.mp stored).1

theorem IsScope.payload_eq {store : Store} {a : Addr} (isScope : store.IsScope a) :
    store.payloads[a]? = some (.scope (store.scope a)) := by
  obtain ⟨inner, stored⟩ := isScope
  simp only [scope, stored]

theorem scope_of_payload {store : Store} {a : Addr} {inner : Scope}
    (there : store.payloads[a]? = some (.scope inner)) : store.scope a = inner := by
  rw [scope, there]

theorem IsList.payload_eq {store : Store} {a : Addr} (isList : store.IsList a) :
    store.payloads[a]? = some (.list (store.items a)) := by
  obtain ⟨items, stored⟩ := isList
  simp only [Store.items, stored]

end Store

/-- A held value names payloads that are there. -/
theorem Value.Held.within {store : Store} {value : Value} (held : value.Held store) :
    value.Within (· < store.size) := by
  induction value with
  | scalar x => simp
  | tuple items inductionHypothesis =>
      rw [within_tuple]
      intro item member
      exact inductionHypothesis item member ((held_tuple store items).mp held item member)
  | list a => simpa using ((held_list store a).mp held).lt_size
  | map a => simpa using ((held_map store a).mp held).lt_size

/-! ## Sound storage -/

/-- A payload that may be put into `store`. -/
structure Payload.Fits (store : Store) (payload : Payload) : Prop where
  held : ∀ value ∈ payload.values, value.Held store
  parents : ∀ inner parent, payload = .scope inner → inner.parent = some parent →
    store.IsScope parent
  keys : ∀ inner, payload = .scope inner → inner.bindings.keys.Nodup

theorem Payload.fits_list {store : Store} {items : List Value}
    (held : ∀ item ∈ items, item.Held store) : (Payload.list items).Fits store where
  held := held
  parents _ _ impossible := by cases impossible
  keys _ impossible := by cases impossible

theorem Payload.fits_scope {store : Store} {inner : Scope}
    (held : ∀ value ∈ inner.bindings.entries.map Prod.snd, value.Held store)
    (parents : ∀ parent, inner.parent = some parent → store.IsScope parent)
    (keys : inner.bindings.keys.Nodup) : (Payload.scope inner).Fits store where
  held := held
  parents _ parent same := by cases same; exact parents parent
  keys _ same := by cases same; exact keys

namespace Store

/-- Every address in a payload stands for a payload of its kind. -/
structure Typed (store : Store) : Prop where
  held : ∀ a, ∀ value ∈ store.values a, value.Held store

/-- The invariant of storage: parents are scopes and older, and no scope repeats a key. -/
structure Sound (store : Store) : Prop extends Typed store where
  parents : ∀ a parent, (store.scope a).parent = some parent → store.IsScope parent ∧ parent < a
  keys : ∀ a, (store.scope a).bindings.keys.Nodup

/-- Sound storage that has lent out nothing but what is there. -/
structure Whole (store : Store) : Prop extends Sound store where
  lent : ∀ a ∈ store.lent, a < store.size

/-- Payloads stay and keep their kind, and scopes keep their parents. -/
structure Retains (before after : Store) : Prop where
  size : before.size ≤ after.size
  lists : ∀ a, before.IsList a → after.IsList a
  scopes : ∀ a, before.IsScope a → after.IsScope a
  parents : ∀ a, before.IsScope a → (after.scope a).parent = (before.scope a).parent

theorem Retains.of_payloads {before after : Store} (same : after.payloads = before.payloads) :
    Retains before after where
  size := Nat.le_of_eq (congrArg Array.size same.symm)
  lists a isList := by rwa [IsList, same]
  scopes a isScope := by rwa [IsScope, same]
  parents a _ := by rw [scope, scope, same]

theorem Retains.refl (store : Store) : Retains store store :=
  .of_payloads rfl

theorem Retains.trans {before middle after : Store} (first : Retains before middle)
    (second : Retains middle after) : Retains before after where
  size := Nat.le_trans first.size second.size
  lists a isList := second.lists a (first.lists a isList)
  scopes a isScope := second.scopes a (first.scopes a isScope)
  parents a isScope := (second.parents a (first.scopes a isScope)).trans (first.parents a isScope)

/-- Storage has developed and is lent out as before. -/
structure Grows (before after : Store) : Prop extends Retains before after where
  lent : after.lent = before.lent

theorem Grows.refl (store : Store) : Grows store store :=
  ⟨.refl store, rfl⟩

theorem Grows.trans {before middle after : Store} (first : Grows before middle)
    (second : Grows middle after) : Grows before after :=
  ⟨first.toRetains.trans second.toRetains, second.lent.trans first.lent⟩

end Store

theorem Value.Held.retain {before after : Store} {value : Value} (held : value.Held before)
    (growth : before.Retains after) : value.Held after := by
  induction value with
  | scalar x => simp
  | tuple items inductionHypothesis =>
      rw [held_tuple] at held ⊢
      intro item member
      exact inductionHypothesis item member (held item member)
  | list a => exact (held_list after a).mpr (growth.lists a ((held_list before a).mp held))
  | map a => exact (held_map after a).mpr (growth.scopes a ((held_map before a).mp held))

theorem Value.Held.grow {before after : Store} {value : Value} (held : value.Held before)
    (growth : before.Grows after) : value.Held after :=
  held.retain growth.toRetains

namespace Store

theorem Sound.of_payloads {before after : Store} (sound : before.Sound)
    (same : after.payloads = before.payloads) : after.Sound where
  held a value member := by
    rw [values_eq_of_payload (congrArg (·[a]?) same)] at member
    exact (sound.held a value member).retain (.of_payloads same)
  parents a parent enclosed := by
    rw [scope, same] at enclosed
    have older := sound.parents a parent enclosed
    exact ⟨(Retains.of_payloads same).scopes parent older.1, older.2⟩
  keys a := by
    rw [scope, same]
    exact sound.keys a

theorem Sound.empty : Sound {} where
  held a value member := by simp [values] at member
  parents a parent enclosed := by simp [scope] at enclosed
  keys a := by simp [scope, Table.keys, Table.empty]

theorem Sound.items_held {store : Store} (sound : store.Sound) (a : Addr) :
    ∀ item ∈ store.items a, item.Held store :=
  fun item member => sound.held a item (mem_values_of_mem_items member)

theorem Sound.binding_held {store : Store} (sound : store.Sound) {a : Addr} {key : String}
    {value : Value} (bound : (store.scope a).bindings.get? key = some value) :
    value.Held store := by
  obtain ⟨entry, found, rfl⟩ := Option.map_eq_some_iff.mp bound
  exact sound.held a _ (mem_values_of_mem_bindings (List.mem_of_find?_eq_some found))

theorem Typed.edge_lt {store : Store} (typed : store.Typed) {a b : Addr}
    (edge : store.Edge a b) : b < store.size := by
  obtain ⟨value, stored, named⟩ := edge
  exact (typed.held a value stored).within b named

theorem Typed.closed {store : Store} (typed : store.Typed) : store.Closed (· < store.size) :=
  fun _ _ _ edge => typed.edge_lt edge

/-! ## New payloads -/

section Allocate

variable {store : Store} {payload : Payload}

theorem grows_allocate (store : Store) (payload : Payload) :
    store.Grows (store.allocate payload).2 where
  size := by simp
  lists := by
    intro a kept
    rcases kept with ⟨items, stored⟩
    have old := IsList.lt_size ⟨items, stored⟩
    exact ⟨items, by rw [payload_allocate_of_lt store payload a old, stored]⟩
  scopes := by
    intro a kept
    rcases kept with ⟨inner, stored⟩
    have old := IsScope.lt_size ⟨inner, stored⟩
    exact ⟨inner, by rw [payload_allocate_of_lt store payload a old, stored]⟩
  parents a isScope := by rw [scope_allocate_of_lt store payload a isScope.lt_size]
  lent := rfl

/-- Storage with a new payload has that payload, the old ones, and nothing else. -/
theorem payload_allocate_cases (store : Store) (payload : Payload) (a : Addr) :
    (store.allocate payload).2.payloads[a]? = store.payloads[a]? ∨
      a = store.size ∧ (store.allocate payload).2.payloads[a]? = some payload := by
  rcases Nat.lt_trichotomy a store.size with old | same | beyond
  · exact Or.inl (payload_allocate_of_lt store payload a old)
  · subst same
    exact Or.inr ⟨rfl, payload_allocate_self store payload⟩
  · refine Or.inl ?_
    have beyondNew : (store.allocate payload).2.size ≤ a := by
      rw [size_allocate]
      exact beyond
    rw [Array.getElem?_eq_none beyondNew, Array.getElem?_eq_none (Nat.le_of_lt beyond)]

theorem sound_allocate (sound : store.Sound) (fits : payload.Fits store) :
    (store.allocate payload).2.Sound := by
  have growth := grows_allocate store payload
  refine { held := ?_, parents := ?_, keys := ?_ }
  · intro a value member
    rcases payload_allocate_cases store payload a with old | ⟨_, new⟩
    · rw [values_eq_of_payload old] at member
      exact (sound.held a value member).grow growth
    · rw [values_of_payload new] at member
      exact (fits.held value member).grow growth
  · intro a parent enclosed
    rcases payload_allocate_cases store payload a with old | ⟨last, new⟩
    · simp only [scope, old] at enclosed
      have := sound.parents a parent enclosed
      exact ⟨growth.scopes parent this.1, this.2⟩
    · cases payload with
      | list items => simp [scope, new] at enclosed
      | scope inner =>
          simp only [scope, new] at enclosed
          have isScope := fits.parents inner parent rfl enclosed
          exact ⟨growth.scopes parent isScope, last ▸ isScope.lt_size⟩
  · intro a
    rcases payload_allocate_cases store payload a with old | ⟨_, new⟩
    · simpa only [scope, old] using sound.keys a
    · cases payload with
      | list items => simp [scope, new, Table.keys, Table.empty]
      | scope inner => simpa only [scope, new] using fits.keys inner rfl

end Allocate

/-! ## Writes -/

theorem payload_setItems_self (store : Store) (a : Addr) (changed : List Value)
    (present : a < store.size) :
    (store.setItems a changed).payloads[a]? = some (.list changed) := by
  have inBounds : a < store.payloads.size := present
  simp [setItems, inBounds]

theorem payload_setBindings_self (store : Store) (a : Addr) (changed : Table Value)
    (present : a < store.size) :
    (store.setBindings a changed).payloads[a]? =
      some (.scope ⟨changed, (store.scope a).parent⟩) := by
  have inBounds : a < store.payloads.size := present
  simp [setBindings, inBounds]

theorem scope_setItems {store : Store} {a : Addr} (isList : store.IsList a) (b : Addr)
    (changed : List Value) : (store.setItems a changed).scope b = store.scope b := by
  by_cases same : b = a
  · subst same
    simp only [scope, payload_setItems_self store b changed isList.lt_size, isList.payload_eq]
  · simp only [scope, payload_setItems_of_ne store a b changed same]

theorem grows_setItems {store : Store} {a : Addr} (isList : store.IsList a)
    (changed : List Value) : store.Grows (store.setItems a changed) where
  size := by simp
  lists b isListThere := by
    by_cases same : b = a
    · subst same
      exact ⟨changed, payload_setItems_self store b changed isList.lt_size⟩
    · exact ⟨store.items b, by
        rw [payload_setItems_of_ne store a b changed same, isListThere.payload_eq]⟩
  scopes b isScope := by
    have different : b ≠ a := by
      intro same
      subst same
      simpa [isList.payload_eq] using isScope.payload_eq
    exact ⟨store.scope b, by
      rw [payload_setItems_of_ne store a b changed different, isScope.payload_eq]⟩
  parents b _ := by rw [scope_setItems isList]
  lent := rfl

theorem sound_setItems {store : Store} {a : Addr} {changed : List Value} (sound : store.Sound)
    (isList : store.IsList a) (held : ∀ item ∈ changed, item.Held store) :
    (store.setItems a changed).Sound where
  held b value member := by
    have growth := grows_setItems isList changed
    by_cases same : b = a
    · subst same
      rw [values_of_payload (payload_setItems_self store b changed isList.lt_size)] at member
      exact (held value member).grow growth
    · rw [values_eq_of_payload (payload_setItems_of_ne store a b changed same)] at member
      exact (sound.held b value member).grow growth
  parents b parent enclosed := by
    rw [scope_setItems isList] at enclosed
    have older := sound.parents b parent enclosed
    exact ⟨(grows_setItems isList changed).scopes parent older.1, older.2⟩
  keys b := by
    rw [scope_setItems isList]
    exact sound.keys b

theorem grows_setBindings {store : Store} {a : Addr} (isScope : store.IsScope a)
    (changed : Table Value) : store.Grows (store.setBindings a changed) where
  size := by simp
  lists b isList := by
    have different : b ≠ a := by
      intro same
      subst same
      simpa [isList.payload_eq] using isScope.payload_eq
    exact ⟨store.items b, by
      rw [payload_setBindings_of_ne store a b changed different, isList.payload_eq]⟩
  scopes b isScopeThere := by
    by_cases same : b = a
    · subst same
      exact ⟨_, payload_setBindings_self store b changed isScope.lt_size⟩
    · exact ⟨store.scope b, by
        rw [payload_setBindings_of_ne store a b changed same, isScopeThere.payload_eq]⟩
  parents b _ := parent_setBindings store a b changed
  lent := rfl

theorem sound_setBindings {store : Store} {a : Addr} {changed : Table Value}
    (sound : store.Sound) (isScope : store.IsScope a)
    (held : ∀ entry ∈ changed.entries, entry.2.Held store) (distinct : changed.keys.Nodup) :
    (store.setBindings a changed).Sound where
  held b value member := by
    have growth := grows_setBindings isScope changed
    by_cases same : b = a
    · subst same
      rw [values_of_payload (payload_setBindings_self store b changed isScope.lt_size)] at member
      obtain ⟨entry, present, rfl⟩ := List.mem_map.mp member
      exact (held entry present).grow growth
    · rw [values_eq_of_payload (payload_setBindings_of_ne store a b changed same)] at member
      exact (sound.held b value member).grow growth
  parents b parent enclosed := by
    rw [parent_setBindings] at enclosed
    have older := sound.parents b parent enclosed
    exact ⟨(grows_setBindings isScope changed).scopes parent older.1, older.2⟩
  keys b := by
    by_cases same : b = a
    · subst same
      rw [scope_setBindings_self store b changed isScope.lt_size]
      exact distinct
    · rw [scope_setBindings_of_ne store a b changed same]
      exact sound.keys b

end Store

end ScopedValues
