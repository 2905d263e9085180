import ScopedValues.Proofs.Storage.Cycles
import ScopedValues.Proofs.Storage.Sound

/-!
Contract: values that come to an end when their elements and bindings are followed.

Owns acyclic values, values that can be read to their ends, and what a value contains.

Main statement: every held value without a cycle ends that leads to nothing that is lent out, so
that what is claimed of such values can be shown along their elements and bindings.
-/

set_option autoImplicit false

namespace ScopedValues

namespace Value

/-- No payload that elements and bindings lead to leads back to itself. -/
def Acyclic (store : Store) (value : Value) : Prop :=
  ∀ a ∈ value.addresses, ∀ b, store.Reaches a b → ¬ store.ReachesItself b

/-- Elements and bindings lead to nothing that is lent out. -/
def Untouched (store : Store) (value : Value) : Prop :=
  ∀ a ∈ value.addresses, ∀ b, store.Reaches a b → b ∉ store.lent

theorem untouched_of_idle {store : Store} (idle : store.lent = []) (value : Value) :
    value.Untouched store := by
  intro a _ b _
  rw [idle]
  exact List.not_mem_nil

/-- Following elements and bindings ends everywhere, and meets nothing that is lent out. -/
inductive Ends (store : Store) : Value → Prop where
  | scalar (x : Scalar) : Ends store (.scalar x)
  | tuple {items : List Value} (each : ∀ item ∈ items, Ends store item) :
      Ends store (.tuple items)
  | list {a : Addr} (isList : store.IsList a) (free : a ∉ store.lent)
      (each : ∀ item ∈ store.items a, Ends store item) : Ends store (.list a)
  | map {a : Addr} (isScope : store.IsScope a) (free : a ∉ store.lent)
      (each : ∀ entry ∈ (store.scope a).bindings.entries, Ends store entry.2) :
      Ends store (.map a)

/-- Elements and bindings lead from a value to another one inside it, or to itself. -/
inductive Contains (store : Store) : Value → Value → Prop where
  | self (value : Value) : Contains store value value
  | element {items : List Value} {item inner : Value} (member : item ∈ items)
      (inside : Contains store item inner) : Contains store (.tuple items) inner
  | item {a : Addr} {item inner : Value} (member : item ∈ store.items a)
      (inside : Contains store item inner) : Contains store (.list a) inner
  | binding {a : Addr} {entry : String × Value} {inner : Value}
      (member : entry ∈ (store.scope a).bindings.entries)
      (inside : Contains store entry.2 inner) : Contains store (.map a) inner

theorem Contains.trans {store : Store} {value middle inner : Value}
    (outside : Contains store value middle) (inside : Contains store middle inner) :
    Contains store value inner := by
  induction outside with
  | self => exact inside
  | element member _ inductionHypothesis => exact .element member (inductionHypothesis inside)
  | item member _ inductionHypothesis => exact .item member (inductionHypothesis inside)
  | binding member _ inductionHypothesis => exact .binding member (inductionHypothesis inside)

/-- A value and everything that it contains has a property. -/
def Throughout (store : Store) (property : Value → Prop) (value : Value) : Prop :=
  ∀ inner, Contains store value inner → property inner

section Throughout

variable {store : Store} {property : Value → Prop}

theorem Throughout.self {value : Value} (all : value.Throughout store property) :
    property value :=
  all value (.self value)

theorem Throughout.element {items : List Value}
    (all : (Value.tuple items).Throughout store property) :
    ∀ item ∈ items, item.Throughout store property :=
  fun _ member inner inside => all inner (.element member inside)

theorem Throughout.item {a : Addr} (all : (Value.list a).Throughout store property) :
    ∀ item ∈ store.items a, item.Throughout store property :=
  fun _ member inner inside => all inner (.item member inside)

theorem Throughout.binding {a : Addr} (all : (Value.map a).Throughout store property) :
    ∀ entry ∈ (store.scope a).bindings.entries, entry.2.Throughout store property :=
  fun _ member inner inside => all inner (.binding member inside)

end Throughout

end Value

namespace Store

variable {store : Store}

/-- What holds of an address may be shown from what holds of those that its payload names,
as long as nothing reached leads back to itself. -/
theorem Typed.acyclicInduction (typed : store.Typed) {motive : Addr → Prop}
    (step : ∀ a, (∀ b, store.Edge a b → motive b) → motive a) {a : Addr} (present : a < store.size)
    (acyclic : ∀ b, store.Reaches a b → ¬ store.ReachesItself b) : motive a := by
  have straight : LeadsToNoCycle store.Edge a := acyclic
  exact straight.induction (fun _ _ _ edge => typed.edge_lt edge) (fun b _ => step b) present

end Store

/-- The list or map at `a` ends. -/
structure Store.EndsAt (store : Store) (a : Addr) : Prop where
  list : store.IsList a → (Value.list a).Ends store
  map : store.IsScope a → (Value.map a).Ends store

namespace Value

variable {store : Store} {value : Value}

/-- A value ends if the lists and maps do that it reaches through tuples alone. -/
theorem Held.ends (held : value.Held store) (each : value.Within store.EndsAt) :
    value.Ends store := by
  induction value with
  | scalar x => exact .scalar x
  | tuple items inductionHypothesis =>
      rw [held_tuple] at held
      rw [within_tuple] at each
      exact .tuple fun item member =>
        inductionHypothesis item member (held item member) (each item member)
  | list a => exact ((within_list _ a).mp each).list ((held_list store a).mp held)
  | map a => exact ((within_map _ a).mp each).map ((held_map store a).mp held)

/-- A held value ends if it has no cycle and nothing that is lent out is in its way. -/
theorem Acyclic.ends_of_untouched (acyclic : value.Acyclic store)
    (untouched : value.Untouched store) (typed : store.Typed) (held : value.Held store) :
    value.Ends store := by
  refine held.ends fun a named => typed.acyclicInduction
    (motive := fun a => (∀ b, store.Reaches a b → b ∉ store.lent) → store.EndsAt a) ?_
    (held.within a named) (acyclic a named) (untouched a named)
  intro b inductionHypothesis free
  have each : ∀ value ∈ store.values b, value.Ends store := by
    intro value stored
    exact (typed.held b value stored).ends fun c named =>
      inductionHypothesis c ⟨value, stored, named⟩ fun d led =>
        free d (.head ⟨value, stored, named⟩ led)
  exact {
    list := fun isList => .list isList (free b .refl) fun item member =>
      each item (Store.mem_values_of_mem_items member)
    map := fun isScope => .map isScope (free b .refl) fun entry member =>
      each entry.2 (Store.mem_values_of_mem_bindings member) }

/-- While nothing is lent out, a held value without a cycle ends. -/
theorem Acyclic.ends (acyclic : value.Acyclic store) (typed : store.Typed)
    (idle : store.lent = []) (held : value.Held store) : value.Ends store :=
  acyclic.ends_of_untouched (untouched_of_idle idle value) typed held

end Value

namespace Store

/-- A value that is there and can be read to its ends. -/
structure Readable (store : Store) (x : Value) : Prop where
  held : x.Held store
  acyclic : x.Acyclic store
  untouched : x.Untouched store

variable {store : Store} {x : Value}

theorem Readable.ends (readable : store.Readable x) (typed : store.Typed) : x.Ends store :=
  readable.acyclic.ends_of_untouched readable.untouched typed readable.held

/-- While nothing is lent out, it is enough that there is no cycle. -/
theorem Readable.of_idle (idle : store.lent = []) (held : x.Held store)
    (acyclic : x.Acyclic store) : store.Readable x :=
  ⟨held, acyclic, Value.untouched_of_idle idle x⟩

end Store

end ScopedValues
