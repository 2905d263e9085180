import ScopedValues.Proofs.Storage.Operations

/-!
Contract: what the operations on lists, scopes and cursors keep.

Main statements: each operation leaves sound storage that has grown out of the storage
it was given, and every value that it answers is held there.

Does not own which element, binding or position an operation is about.
-/

set_option autoImplicit false

namespace ScopedValues.Store

variable {store : Store} {a : Addr}

/-! ## Lists -/

theorem keeps_newList (sound : store.Sound) {items : List Value}
    (held : ∀ item ∈ items, item.Held store) :
    store.Keeps (.ok (store.newList items)) fun made after => after.IsList made :=
  .ok ⟨sound_allocate sound (Payload.fits_list held), grows_allocate store _⟩
    ⟨items, payload_allocate_self store _⟩

theorem keeps_listOfTuple (sound : store.Sound) {value : Value} (held : value.Held store) :
    store.Keeps (store.listOfTuple value) fun made after => after.IsList made := by
  cases value with
  | tuple items =>
      rw [Value.held_tuple] at held
      apply (keeps_deepCopyAll sound held).bind
      intro copies later develops kept
      exact keeps_newList develops.sound kept
  | scalar x => exact .error _
  | list b => exact .error _
  | map b => exact .error _

theorem getD_held {items : List Value} (held : ∀ item ∈ items, item.Held store)
    (position : Nat) : (items.getD position Value.none).Held store := by
  rw [List.getD_eq_getElem?_getD]
  cases found : items[position]? with
  | none => exact Value.held_none store
  | some item => exact held item (List.mem_of_getElem? found)

theorem readList_eq_items {items : List Value} (read : store.readList a = .ok items) :
    items = store.items a := by
  rw [readList_eq] at read
  split at read
  · cases read
  · exact (Except.ok.inj read).symm

/-- A list that has been read is not lent out. -/
theorem free_of_readList {items : List Value} (read : store.readList a = .ok items) :
    a ∉ store.lent := by
  intro lent
  rw [readList_eq, if_pos lent] at read
  cases read

theorem keeps_getItem (sound : store.Sound) (a : Addr) (index : Index) :
    store.Keeps (store.getItem a index) fun copy after => copy.Held after := by
  apply Keeps.ask
  intro items read
  apply Keeps.ask
  intro position _
  rw [readList_eq_items read]
  exact keeps_copy sound (getD_held (sound.items_held a) position)

theorem item_eq_ok {index : Index} {position : Nat} {value : Value}
    (found : store.item a index = .ok (position, value)) :
    value = (store.items a).getD position Value.none := by
  obtain ⟨items, read, found⟩ := bind_eq_ok found
  obtain ⟨_, _, found⟩ := bind_eq_ok found
  cases found
  rw [readList_eq_items read]

theorem item_held (sound : store.Sound) {index : Index} {position : Nat} {value : Value}
    (found : store.item a index = .ok (position, value)) : value.Held store := by
  rw [item_eq_ok found]
  exact getD_held (sound.items_held a) position

theorem develops_setItems (sound : store.Sound) (isList : store.IsList a) {changed : List Value}
    (held : ∀ item ∈ changed, item.Held store) : store.Develops (store.setItems a changed) :=
  ⟨sound_setItems sound isList held, grows_setItems isList changed⟩

theorem develops_setPosition (sound : store.Sound) (isList : store.IsList a) {value : Value}
    (held : value.Held store) (position : Nat) :
    store.Develops (store.setPosition a position value) := by
  apply develops_setItems sound isList
  intro item member
  rcases List.mem_or_eq_of_mem_set member with old | rfl
  · exact sound.items_held a item old
  · exact held

theorem keeps_setItem (sound : store.Sound) (isList : store.IsList a) {value : Value}
    (held : value.Held store) (index : Index) :
    store.Keeps (store.setItem a index value) fun old after => old.Held after := by
  apply Keeps.ask
  intro answer found
  rcases answer with ⟨position, old⟩
  have develops := develops_setPosition sound isList held position
  exact .ok develops ((item_held sound found).grow develops.grows)

theorem develops_push (sound : store.Sound) (isList : store.IsList a) {value : Value}
    (held : value.Held store) {after : Store} (done : store.push a value = .ok after) :
    store.Develops after := by
  obtain ⟨items, read, done⟩ := bind_eq_ok done
  cases done
  rw [readList_eq_items read]
  apply develops_setItems sound isList
  intro item member
  rcases List.mem_append.mp member with old | new
  · exact sound.items_held a item old
  · rw [List.mem_singleton.mp new]
    exact held

theorem keeps_pop (sound : store.Sound) (isList : store.IsList a) (index : Option Index) :
    store.Keeps (store.pop a index) fun removed after => removed.Held after := by
  apply Keeps.ask
  intro items read
  apply Keeps.ask
  intro position _
  rw [readList_eq_items read]
  have develops : store.Develops (store.setItems a ((store.items a).eraseIdx position)) :=
    develops_setItems sound isList fun item member =>
      sound.items_held a item (List.mem_of_mem_eraseIdx member)
  exact .ok develops ((getD_held (sound.items_held a) position).grow develops.grows)

/-! ## Scopes -/

theorem scope_allocate_self (store : Store) (inner : Scope) :
    (store.allocate (.scope inner)).2.scope (store.allocate (.scope inner)).1 = inner := by
  rw [scope, payload_allocate_self]

theorem keeps_newRoot (sound : store.Sound) :
    store.Keeps (.ok store.newRoot) fun made after =>
      after.IsScope made ∧ (after.scope made).parent = none := by
  have stored := payload_allocate_self store (.scope ⟨Table.empty, none⟩)
  have fits : (Payload.scope ⟨Table.empty, none⟩).Fits store :=
    Payload.fits_scope (by simp [Table.empty]) (by simp) (by simp)
  exact .ok ⟨sound_allocate sound fits, grows_allocate store _⟩
    ⟨⟨_, stored⟩, congrArg Scope.parent (scope_allocate_self store _)⟩

theorem keeps_newChild (sound : store.Sound) (isScope : store.IsScope a) :
    store.Keeps (.ok (store.newChild a)) fun made after =>
      after.IsScope made ∧ (after.scope made).parent = some a := by
  have stored := payload_allocate_self store (.scope ⟨Table.empty, some a⟩)
  have fits : (Payload.scope ⟨Table.empty, some a⟩).Fits store := by
    apply Payload.fits_scope (by simp [Table.empty]) _ (by simp)
    intro parent same
    cases same
    exact isScope
  exact .ok ⟨sound_allocate sound fits, grows_allocate store _⟩
    ⟨⟨_, stored⟩, congrArg Scope.parent (scope_allocate_self store _)⟩

theorem readScope_eq_scope {inner : Scope} (read : store.readScope a = .ok inner) :
    inner = store.scope a := by
  rw [readScope_eq] at read
  split at read
  · cases read
  · exact (Except.ok.inj read).symm

theorem bindings_eq_ok {table : Table Value} (read : store.bindings a = .ok table) :
    table = (store.scope a).bindings := by
  obtain ⟨inner, scopeRead, same⟩ := bind_eq_ok read
  cases same
  rw [readScope_eq_scope scopeRead]

theorem keeps_find (sound : store.Sound) (a : Addr) (key : String) :
    store.Keeps (store.find a key) fun found after =>
      ∀ value, found = some value → value.Held after := by
  apply Keeps.ask
  intro table read
  rw [bindings_eq_ok read]
  cases bound : (store.scope a).bindings.get? key with
  | none => exact .ok (.refl sound) (by simp)
  | some value =>
      apply (keeps_copy sound (sound.binding_held bound)).bind
      intro copy later develops held
      refine .ok (.refl develops.sound) fun other same => ?_
      cases same
      exact held

theorem keeps_findAlong (sound : store.Sound) (key : String) (scopes : List Addr) :
    store.Keeps (store.findAlong key scopes) fun found after =>
      ∀ value, found = some value → value.Held after := by
  induction scopes with
  | nil => exact .ok (.refl sound) (by simp)
  | cons inner outer inductionHypothesis =>
      -- A scope that answers ends the search; the others leave storage as it is.
      intro found after ok
      obtain ⟨⟨here, later⟩, searched, ok⟩ := bind_eq_ok ok
      cases here with
      | some value =>
          cases ok
          exact keeps_find sound inner key _ _ searched
      | none => exact inductionHypothesis found after ok

theorem keeps_lookup (sound : store.Sound) (a : Addr) (key : String) :
    store.Keeps (store.lookup a key) fun found after =>
      ∀ value, found = some value → value.Held after :=
  keeps_findAlong sound key (store.chain a)

theorem firstBinding_mem {key : String} {scopes : List Addr} {owner : Addr}
    (found : store.firstBinding key scopes = .ok (some owner)) : owner ∈ scopes := by
  induction scopes with
  | nil => cases found
  | cons inner outer inductionHypothesis =>
      obtain ⟨_, _, found⟩ := bind_eq_ok found
      split at found
      · cases found
        exact List.mem_cons_self
      · exact List.mem_cons_of_mem inner (inductionHypothesis found)

theorem owner?_isScope (sound : store.Sound) (isScope : store.IsScope a) {key : String}
    {owner : Option Addr} (found : store.owner? a key = .ok owner) :
    store.IsScope (owner.getD a) := by
  cases owner with
  | none => exact isScope
  | some owner => exact isScope_of_mem_chain sound isScope owner (firstBinding_mem found)

theorem parent?_isScope (sound : store.Sound) {parent : Addr}
    (found : store.parent? a = .ok (some parent)) : store.IsScope parent := by
  obtain ⟨inner, read, same⟩ := bind_eq_ok found
  rw [readScope_eq_scope read] at same
  exact (sound.parents a parent (Except.ok.inj same)).1

theorem develops_setBindings (sound : store.Sound) (isScope : store.IsScope a)
    {changed : Table Value} (held : ∀ entry ∈ changed.entries, entry.2.Held store)
    (distinct : changed.keys.Nodup) : store.Develops (store.setBindings a changed) :=
  ⟨sound_setBindings sound isScope held distinct, grows_setBindings isScope changed⟩

theorem develops_setEntry (sound : store.Sound) (isScope : store.IsScope a) (key : String)
    {value : Value} (held : value.Held store) : store.Develops (store.setEntry a key value) := by
  apply develops_setBindings sound isScope _ (Table.nodup_keys_insert _ _ _ (sound.keys a))
  intro entry member
  rcases Table.mem_insert member with rfl | old
  · exact held
  · exact sound.entry_held a entry old

theorem get?_held (sound : store.Sound) (a : Addr) (key : String) :
    ∀ value, (store.scope a).bindings.get? key = some value → value.Held store :=
  fun _ bound => sound.binding_held bound

theorem keeps_insert (sound : store.Sound) (isScope : store.IsScope a) (key : String)
    {value : Value} (held : value.Held store) :
    store.Keeps (store.insert a key value) fun old after =>
      ∀ value, old = some value → value.Held after := by
  apply Keeps.ask
  intro table read
  rw [bindings_eq_ok read]
  have develops := develops_setEntry sound isScope key held
  exact .ok develops fun old bound => (get?_held sound a key old bound).grow develops.grows

theorem keeps_erase (sound : store.Sound) (isScope : store.IsScope a) (key : String) :
    store.Keeps (store.erase a key) fun old after =>
      ∀ value, old = some value → value.Held after := by
  apply Keeps.ask
  intro table read
  rw [bindings_eq_ok read]
  have develops : store.Develops
      (store.setBindings a ((store.scope a).bindings.erase key)) := by
    apply develops_setBindings sound isScope _ (Table.nodup_keys_erase _ _ (sound.keys a))
    exact fun entry member => sound.entry_held a entry (Table.mem_erase member)
  exact .ok develops fun old bound => (get?_held sound a key old bound).grow develops.grows

theorem develops_assign (sound : store.Sound) (isScope : store.IsScope a) {key : String}
    {value : Value} (held : value.Held store) {after : Store}
    (done : store.assign a key value = .ok after) : store.Develops after := by
  obtain ⟨owner, found, done⟩ := bind_eq_ok done
  obtain ⟨table, read, done⟩ := bind_eq_ok done
  cases done
  rw [bindings_eq_ok read]
  exact develops_setEntry sound (owner?_isScope sound isScope found) key held

theorem entry_keeps (sound : store.Sound) (isScope : store.IsScope a) {key : String}
    {owner : Addr} {value : Value} {after : Store}
    (found : store.entry a key = .ok (owner, value, after)) :
    store.Develops after ∧ after.IsScope owner ∧ value.Held after := by
  obtain ⟨nearest, searched, found⟩ := bind_eq_ok found
  obtain ⟨table, read, found⟩ := bind_eq_ok found
  cases found
  have ownerIsScope := owner?_isScope sound isScope searched
  rw [bindings_eq_ok read]
  have held : ∀ entry ∈ ((store.scope (nearest.getD a)).bindings.declare key Value.none).entries,
      entry.2.Held store := by
    intro entry member
    rcases Table.mem_declare member with rfl | old
    · exact Value.held_none store
    · exact sound.entry_held _ entry old
  have develops := develops_setBindings sound ownerIsScope held
    (Table.nodup_keys_declare _ _ _ (sound.keys _))
  refine ⟨develops, develops.grows.scopes _ ownerIsScope, ?_⟩
  cases bound : ((store.scope (nearest.getD a)).bindings.declare key Value.none).get? key with
  | none => exact Value.held_none _
  | some value => exact (held _ (Table.mem_of_get? bound)).grow develops.grows

end ScopedValues.Store

/-! ## Cursors -/

namespace ScopedValues.Cursor

open Store

variable {store : Store}

theorem keeps_current? (sound : store.Sound) (cursor : Cursor) :
    store.Keeps (cursor.current? store) fun found after =>
      ∀ value, found = some value → value.Held after := by
  obtain ⟨walked, position⟩ := cursor
  cases walked with
  | elements a =>
      apply Keeps.ask
      intro items read
      rw [readList_eq_items read]
      cases found : (store.items a)[position]? with
      | none => exact .ok (.refl sound) (by simp)
      | some value =>
          apply (keeps_copy sound (sound.items_held a value (List.mem_of_getElem? found))).bind
          intro copy later develops held
          refine .ok (.refl develops.sound) fun other same => ?_
          cases same
          exact held
  | keys a =>
      apply Keeps.ask
      intro table _
      refine .ok (.refl sound) fun value same => ?_
      obtain ⟨key, _, rfl⟩ := Option.map_eq_some_iff.mp same
      exact Value.held_scalar store _

theorem keeps_next (sound : store.Sound) (cursor : Cursor) :
    store.Keeps (cursor.next store) fun answer after =>
      ∀ value, answer.1 = some value → value.Held after := by
  apply (keeps_current? sound cursor).bind
  intro found later develops held
  cases found with
  | none => exact .ok (.refl develops.sound) (by simp)
  | some value => exact .ok (.refl develops.sound) held

theorem keeps_take (count : Nat) (sound : store.Sound) (cursor : Cursor) :
    store.Keeps (cursor.take count store) fun answer after =>
      ∀ value ∈ answer.1, value.Held after := by
  induction count generalizing cursor store with
  | zero => exact .ok (.refl sound) (by simp)
  | succ count inductionHypothesis =>
      apply (keeps_next sound cursor).bind
      intro answer later develops held
      rcases answer with ⟨found, moved⟩
      cases found with
      | none => exact .ok (.refl develops.sound) (by simp)
      | some value =>
          -- What the rest of the pass allocates comes after `value`.
          intro answer after ok
          obtain ⟨⟨⟨rest, last⟩, final⟩, done, ok⟩ := bind_eq_ok ok
          obtain ⟨further, restHeld⟩ := inductionHypothesis develops.sound moved _ _ done
          cases ok
          refine ⟨further, fun element member => ?_⟩
          rcases List.mem_cons.mp member with rfl | later
          · exact (held element rfl).grow further.grows
          · exact restHeld element later

theorem keeps_pass (sound : store.Sound) (cursor : Cursor) :
    store.Keeps (cursor.pass store) fun answer after =>
      ∀ value ∈ answer.1, value.Held after := by
  apply Keeps.ask
  intro length _
  exact keeps_take (length + 1) sound cursor

end ScopedValues.Cursor
