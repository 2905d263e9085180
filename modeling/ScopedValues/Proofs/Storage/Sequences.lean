import ScopedValues.Proofs.Storage.Containers

/-!
Contract: lists as plain sequences.

Main statements: an index names a position inside the list, or nothing; a list that is free is
read and changed as a plain sequence is; and a write of one list changes the elements of no
other.

Does not own what is answered while the list is lent out.
-/

set_option autoImplicit false

namespace ScopedValues

/-! ## Positions -/

namespace Index

variable {index : Index} {length position : Nat}

theorem resolve_lt (resolved : index.resolve length = .ok position) : position < length := by
  cases index with
  | whole first =>
      rw [resolve] at resolved
      split at resolved
      · next inside => exact Except.ok.inj resolved ▸ inside
      · cases resolved
  | number x =>
      rw [resolve] at resolved
      split at resolved
      · next inside => exact Except.ok.inj resolved ▸ inside.2.2
      · cases resolved

theorem wholeWord_pos {x : Double} (below : x.truncated < 0) : 0 < x.wholeWord := by
  have some : 0 < x.wholePart := by
    rw [Double.truncated] at below
    split at below <;> omega
  exact Nat.lt_min.mpr ⟨some, by decide⟩

theorem resolveFromEnd_lt (resolved : index.resolveFromEnd length = .ok position) :
    position < length := by
  cases index with
  | whole first =>
      rw [resolveFromEnd] at resolved
      exact resolve_lt resolved
  | number x =>
      rw [resolveFromEnd] at resolved
      split at resolved
      · next below =>
          split at resolved
          · next inside =>
              have some := wholeWord_pos below.2
              have same := Except.ok.inj resolved
              omega
          · cases resolved
      · exact resolve_lt resolved

theorem resolveRemoval_lt {index : Option Index}
    (resolved : resolveRemoval index length = .ok position) : position < length := by
  cases index with
  | some index => exact resolveFromEnd_lt resolved
  | none =>
      rw [resolveRemoval] at resolved
      split at resolved
      · have same := Except.ok.inj resolved
        omega
      · cases resolved

end Index

/-! ## Elements -/

namespace Store

variable {store after : Store} {a b : Addr}

theorem items_of_payload {later : Store} (same : later.payloads[a]? = store.payloads[a]?) :
    later.items a = store.items a := by
  rw [items, items, same]

theorem items_setItems (present : a < store.size) (changed : List Value) (b : Addr) :
    (store.setItems a changed).items b = if b = a then changed else store.items b := by
  split
  · next same =>
      subst same
      rw [items, payload_setItems_self store b changed present]
  · next different => exact items_of_payload (payload_setItems_of_ne store a b changed different)

theorem items_setBindings_of_ne (changed : Table Value) (different : b ≠ a) :
    (store.setBindings a changed).items b = store.items b :=
  items_of_payload (payload_setBindings_of_ne store a b changed different)

theorem Extends.items_eq {before after : Store} (extension : before.Extends after)
    (old : a < before.size) : after.items a = before.items a :=
  items_of_payload (extension.old a old)

theorem readList_of_free (free : a ∉ store.lent) : store.readList a = .ok (store.items a) := by
  rw [readList_eq, if_neg free]

section Free

variable {index : Index} {position : Nat} {value : Value}

/-- The place at an index that names a position. -/
theorem item_of_free (free : a ∉ store.lent)
    (resolved : index.resolve (store.items a).length = .ok position) :
    store.item a index = .ok (position, (store.items a).getD position Value.none) := by
  rw [item, readList_of_free free]
  change (Fault.ofRefusal (index.resolve (store.items a).length) >>= _) = _
  rw [resolved]
  rfl

theorem setItem_of_free (free : a ∉ store.lent)
    (resolved : index.resolve (store.items a).length = .ok position) :
    store.setItem a index value =
      .ok ((store.items a).getD position Value.none,
        store.setItems a ((store.items a).set position value)) := by
  rw [setItem, item_of_free free resolved]
  rfl

theorem push_of_free (free : a ∉ store.lent) :
    store.push a value = .ok (store.setItems a (store.items a ++ [value])) := by
  rw [push, readList_of_free free]
  rfl

theorem pop_of_free (free : a ∉ store.lent) {index : Option Index}
    (resolved : Index.resolveRemoval index (store.items a).length = .ok position) :
    store.pop a index =
      .ok ((store.items a).getD position Value.none,
        store.setItems a ((store.items a).eraseIdx position)) := by
  rw [pop, readList_of_free free]
  change (Fault.ofRefusal (Index.resolveRemoval index (store.items a).length) >>= _) = _
  rw [resolved]
  rfl

end Free

/-! ## What has succeeded -/

section Done

variable {value : Value}

theorem ofRefusal_eq_ok {α : Type} {outcome : Except Refusal α} {x : α}
    (done : Fault.ofRefusal outcome = .ok x) : outcome = .ok x := by
  cases outcome with
  | ok y => exact congrArg Except.ok (Except.ok.inj done)
  | error reason => cases done

theorem resolve_of_item {index : Index} {position : Nat}
    (found : store.item a index = .ok (position, value)) :
    a ∉ store.lent ∧ index.resolve (store.items a).length = .ok position := by
  obtain ⟨items, read, found⟩ := bind_eq_ok found
  obtain ⟨place, resolved, found⟩ := bind_eq_ok found
  cases found
  rw [← readList_eq_items read]
  exact ⟨free_of_readList read, ofRefusal_eq_ok resolved⟩

theorem push_eq_ok (done : store.push a value = .ok after) :
    a ∉ store.lent ∧ after = store.setItems a (store.items a ++ [value]) := by
  obtain ⟨items, read, done⟩ := bind_eq_ok done
  cases done
  rw [← readList_eq_items read]
  exact ⟨free_of_readList read, rfl⟩

theorem setItem_eq_ok {index : Index} {old : Value}
    (done : store.setItem a index value = .ok (old, after)) :
    ∃ position, index.resolve (store.items a).length = .ok position ∧
      old = (store.items a).getD position Value.none ∧
      after = store.setItems a ((store.items a).set position value) := by
  obtain ⟨⟨position, previous⟩, found, done⟩ := bind_eq_ok done
  obtain ⟨_, resolved⟩ := resolve_of_item found
  cases done
  exact ⟨position, resolved, item_eq_ok found, rfl⟩

theorem pop_eq_ok {index : Option Index} {removed : Value}
    (done : store.pop a index = .ok (removed, after)) :
    ∃ position, Index.resolveRemoval index (store.items a).length = .ok position ∧
      removed = (store.items a).getD position Value.none ∧
      after = store.setItems a ((store.items a).eraseIdx position) := by
  obtain ⟨items, read, done⟩ := bind_eq_ok done
  obtain ⟨position, resolved, done⟩ := bind_eq_ok done
  obtain rfl := readList_eq_items read
  cases done
  exact ⟨position, ofRefusal_eq_ok resolved, rfl, rfl⟩

end Done

end Store

end ScopedValues
