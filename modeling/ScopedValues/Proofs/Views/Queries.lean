import ScopedValues.Proofs.Storage.Containers
import ScopedValues.Proofs.Views.Comparing
import ScopedValues.Proofs.Views.Copying

/-!
Contract: questions about values, lists and scopes, and what their answers depend on.

Owns the questions that can be asked through a handle or a value, their answers, and
the region of storage that a question is about.

Main statement: a question about a region has the same answer in every storage that
preserves the region.

An answer that comes with a copy tells what can be seen of the copy, not where it is.
-/

set_option autoImplicit false

namespace ScopedValues

open Store

/-! ## Questions and answers -/

inductive Query where
  | elements (a : Addr)
  | element (a : Addr) (index : Index)
  | bindings (a : Addr)
  | find (a : Addr) (key : String)
  | lookup (a : Addr) (key : String)
  | owner (a : Addr) (key : String)
  | chain (a : Addr)
  | picture (value : Value)
  | equal (x y : Value)

inductive Sight where
  | values (items : List Value)
  | copied (picture : Picture)
  | table (bindings : Table Value)
  | found (picture : Option Picture)
  | scope (owner : Option Addr)
  | scopes (chain : List Addr)
  | picture (picture : Picture)
  | same (equal : Bool)

/-- What can be seen of the copy that a search answers, if it answers one. -/
def Store.picturedAny (outcome : Except Fault (Option Value × Store)) :
    Except Fault (Option Picture) :=
  outcome.map fun found => found.1.map found.2.picture

namespace Query

def answer (store : Store) : Query → Except Fault Sight
  | .elements a => (store.readList a).map .values
  | .element a index => (pictured (store.getItem a index)).map .copied
  | .bindings a => (store.bindings a).map .table
  | .find a key => (picturedAny (store.find a key)).map .found
  | .lookup a key => (picturedAny (store.lookup a key)).map .found
  | .owner a key => (store.owner? a key).map .scope
  | .chain a => (store.enclosing a).map .scopes
  | .picture value => .ok (.picture (store.picture value))
  | .equal x y => (store.equal x y).map .same

/-- A question that can be asked: its handles and values stand for what is there. -/
def Held (store : Store) : Query → Prop
  | .elements a => store.IsList a
  | .element a _ => store.IsList a
  | .bindings a => store.IsScope a
  | .find a _ => store.IsScope a
  | .lookup a _ => store.IsScope a
  | .owner a _ => store.IsScope a
  | .chain a => store.IsScope a
  | .picture value => value.Held store
  | .equal x y => x.Held store ∧ y.Held store

/-- A question about a region; one that looks at enclosing scopes is about these as well. -/
def Within (store : Store) (region : Addr → Prop) : Query → Prop
  | .elements a => region a
  | .element a _ => region a
  | .bindings a => region a
  | .find a _ => region a
  | .lookup a _ => ∀ scope ∈ store.chain a, region scope
  | .owner a _ => ∀ scope ∈ store.chain a, region scope
  | .chain a => ∀ scope ∈ store.chain a, region scope
  | .picture value => value.Within region
  | .equal x y => x.Within region ∧ y.Within region

/-- Every question that can be asked is about the payloads that are there. -/
theorem Held.within {store : Store} (sound : store.Sound) {query : Query}
    (held : query.Held store) : query.Within store (· < store.size) := by
  have enclosed : ∀ a, store.IsScope a → ∀ scope ∈ store.chain a, scope < store.size :=
    fun a isScope scope member => (isScope_of_mem_chain sound isScope scope member).lt_size
  cases query with
  | elements a => exact IsList.lt_size held
  | element a index => exact IsList.lt_size held
  | bindings a => exact IsScope.lt_size held
  | find a key => exact IsScope.lt_size held
  | lookup a key => exact enclosed a held
  | owner a key => exact enclosed a held
  | chain a => exact enclosed a held
  | picture value => exact Value.Held.within held
  | equal x y => exact ⟨held.1.within, held.2.within⟩

end Query

/-! ## Answers from one payload -/

namespace Store

section Reading

variable {region : Addr → Prop} {before after : Store} {a : Addr}

theorem Agree.items_eq (view : Agree region before after) (inside : region a) :
    after.items a = before.items a := by
  rw [items, items, view.payloads a inside]

theorem Agree.scope_eq (view : Agree region before after) (inside : region a) :
    after.scope a = before.scope a := by
  rw [scope, scope, view.payloads a inside]

theorem Agree.readList_eq (view : Agree region before after) (inside : region a) :
    after.readList a = before.readList a := by
  rw [readList, readList, view.free_eq inside, view.items_eq inside]

theorem Agree.readScope_eq (view : Agree region before after) (inside : region a) :
    after.readScope a = before.readScope a := by
  rw [readScope, readScope, view.free_eq inside, view.scope_eq inside]

theorem Agree.bindings_eq (view : Agree region before after) (inside : region a) :
    after.bindings a = before.bindings a := by
  rw [bindings, bindings, view.readScope_eq inside]

theorem getD_within {items : List Value} (within : ∀ item ∈ items, item.Within region)
    (position : Nat) : (items.getD position Value.none).Within region := by
  rw [List.getD_eq_getElem?_getD]
  cases found : items[position]? with
  | none => exact Value.within_scalar region .none
  | some item => exact within item (List.mem_of_getElem? found)

theorem Preserves.pictured_getItem_eq (preserves : Preserves region before after)
    (inside : region a) (index : Index) :
    pictured (after.getItem a index) = pictured (before.getItem a index) := by
  rw [getItem, getItem, preserves.readList_eq inside]
  cases read : before.readList a with
  | error fault => rfl
  | ok items =>
      cases resolved : Fault.ofRefusal (index.resolve items.length) with
      | error fault => simp only [resolved, bind, Except.bind]
      | ok position =>
          simp only [resolved, bind, Except.bind]
          rw [readList_eq_items read]
          have within : ∀ item ∈ before.items a, item.Within region := fun item member =>
            preserves.closed.within_values inside (mem_values_of_mem_items member)
          exact preserves.pictured_copy_eq (getD_held (preserves.whole.items_held a) position)
            (getD_within within position)

theorem picturedAny_foundCopy (outcome : Except Fault (Value × Store)) :
    picturedAny (foundCopy outcome) = (pictured outcome).map some := by
  cases outcome <;> rfl

theorem Preserves.picturedAny_find_eq (preserves : Preserves region before after)
    (inside : region a) (key : String) :
    picturedAny (after.find a key) = picturedAny (before.find a key) := by
  rw [find, find, preserves.bindings_eq inside]
  cases read : before.bindings a with
  | error fault => rfl
  | ok table =>
      simp only [bind, Except.bind]
      cases bound : table.get? key with
      | none => rfl
      | some value =>
          rw [bindings_eq_ok read] at bound
          have within : value.Within region := preserves.closed.within_values inside
            (mem_values_of_mem_bindings (Table.mem_of_get? bound))
          show picturedAny (foundCopy (after.copy value)) =
            picturedAny (foundCopy (before.copy value))
          rw [picturedAny_foundCopy, picturedAny_foundCopy,
            preserves.pictured_copy_eq (preserves.whole.binding_held bound) within]

/-! ## Answers along a chain -/

variable {scopes : List Addr}

theorem picturedAny_findAlong (store : Store) (key : String) (a : Addr) (outer : List Addr) :
    picturedAny (store.findAlong key (a :: outer)) = (do
      match ← picturedAny (store.find a key) with
      | some picture => .ok (some picture)
      | none => picturedAny (store.findAlong key outer)) := by
  rw [findAlong]
  cases store.find a key with
  | error fault => rfl
  | ok found =>
      obtain ⟨value, later⟩ := found
      cases value <;> rfl

theorem Preserves.picturedAny_findAlong_eq (preserves : Preserves region before after)
    (key : String) (inside : ∀ scope ∈ scopes, region scope) :
    picturedAny (after.findAlong key scopes) = picturedAny (before.findAlong key scopes) := by
  induction scopes with
  | nil => rfl
  | cons a outer inductionHypothesis =>
      rw [List.forall_mem_cons] at inside
      rw [picturedAny_findAlong, picturedAny_findAlong,
        preserves.picturedAny_find_eq inside.1 key, inductionHypothesis inside.2]

theorem Agree.firstBinding_eq (view : Agree region before after) (key : String)
    (inside : ∀ scope ∈ scopes, region scope) :
    after.firstBinding key scopes = before.firstBinding key scopes := by
  induction scopes with
  | nil => rfl
  | cons a outer inductionHypothesis =>
      rw [List.forall_mem_cons] at inside
      rw [firstBinding, firstBinding, view.readScope_eq inside.1, inductionHypothesis inside.2]

theorem Agree.walk_eq (view : Agree region before after)
    (inside : ∀ scope ∈ scopes, region scope) : after.walk scopes = before.walk scopes := by
  induction scopes with
  | nil => rfl
  | cons a outer inductionHypothesis =>
      rw [List.forall_mem_cons] at inside
      rw [walk, walk, view.free_eq inside.1, inductionHypothesis inside.2]

end Reading

/-- A question about what is preserved has the answer that it had. -/
theorem Preserves.answer_eq {region : Addr → Prop} {before after : Store}
    (preserves : Preserves region before after) {query : Query} (held : query.Held before)
    (within : query.Within before region) : query.answer after = query.answer before := by
  have chains : ∀ a, before.IsScope a → after.chain a = before.chain a := fun a isScope =>
    preserves.retains.chain_eq preserves.whole.toSound preserves.wholeAfter.toSound isScope
  cases query with
  | elements a => rw [Query.answer, Query.answer, preserves.readList_eq within]
  | element a index =>
      rw [Query.answer, Query.answer, preserves.pictured_getItem_eq within index]
  | bindings a => rw [Query.answer, Query.answer, preserves.bindings_eq within]
  | find a key => rw [Query.answer, Query.answer, preserves.picturedAny_find_eq within key]
  | lookup a key =>
      rw [Query.answer, Query.answer, lookup, lookup, chains a held,
        preserves.picturedAny_findAlong_eq key within]
  | owner a key =>
      rw [Query.answer, Query.answer, owner?, owner?, chains a held,
        preserves.firstBinding_eq key within]
  | chain a =>
      rw [Query.answer, Query.answer, enclosing, enclosing, chains a held,
        preserves.walk_eq within]
  | picture value => rw [Query.answer, Query.answer, preserves.picture_eq within]
  | equal x y => rw [Query.answer, Query.answer, preserves.equal_eq within.1 within.2]

end Store

end ScopedValues
