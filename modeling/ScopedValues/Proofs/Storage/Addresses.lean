import Mathlib.Logic.Relation
import ScopedValues.Store.Lemmas

/-!
Contract: which payloads values and payloads lead to.

Owns the addresses that a value reaches through tuples alone, the values of a
payload, and the step from one payload to those that its elements or bindings name.

Does not own parents, which are never followed here.
-/

set_option autoImplicit false

namespace ScopedValues

/-! ## Induction on values -/

/-- What holds of a tuple may be shown from what holds of each element. -/
@[induction_eliminator]
theorem Value.nestedInduction {motive : Value → Prop}
    (scalar : ∀ x, motive (.scalar x))
    (tuple : ∀ items, (∀ item ∈ items, motive item) → motive (.tuple items))
    (list : ∀ a, motive (.list a))
    (map : ∀ a, motive (.map a)) (value : Value) : motive value :=
  @Value.rec motive (fun items => ∀ item ∈ items, motive item)
    scalar tuple list map
    (by simp)
    (fun _ _ head rest => by simpa using ⟨head, rest⟩)
    value

/-! ## Addresses of a value -/

namespace Value

mutual

/-- The addresses that are reached through tuples alone, in order. -/
def addresses : Value → List Addr
  | .scalar _ => []
  | .tuple items => addressesAll items
  | .list a => [a]
  | .map a => [a]
termination_by structural value => value

def addressesAll : List Value → List Addr
  | [] => []
  | item :: rest => addresses item ++ addressesAll rest
termination_by structural items => items

end

theorem addressesAll_eq_flatMap (items : List Value) :
    addressesAll items = items.flatMap addresses := by
  induction items with
  | nil => rfl
  | cons item rest inductionHypothesis => simp [addressesAll, inductionHypothesis]

@[simp] theorem addresses_scalar (x : Scalar) : addresses (.scalar x) = [] := by
  rw [addresses]

@[simp] theorem addresses_list (a : Addr) : addresses (.list a) = [a] := rfl

@[simp] theorem addresses_map (a : Addr) : addresses (.map a) = [a] := rfl

@[simp] theorem addresses_tuple (items : List Value) :
    addresses (.tuple items) = items.flatMap addresses := by
  rw [addresses, addressesAll_eq_flatMap]

end Value

/-! ## Values of a payload -/

/-- The elements of a list, or the bindings of a scope without their keys. -/
def Payload.values : Payload → List Value
  | .list items => items
  | .scope inner => inner.bindings.entries.map Prod.snd

namespace Store

/-- The values of the payload at an address. -/
def values (store : Store) (a : Addr) : List Value :=
  match store.payloads[a]? with
  | some payload => payload.values
  | none => []

theorem values_eq_of_payload {before after : Store} {a b : Addr}
    (same : after.payloads[b]? = before.payloads[a]?) : after.values b = before.values a := by
  simp only [values, same]

theorem values_of_payload {store : Store} {a : Addr} {payload : Payload}
    (stored : store.payloads[a]? = some payload) : store.values a = payload.values := by
  simp only [values, stored]

theorem mem_values_of_mem_items {store : Store} {a : Addr} {item : Value}
    (member : item ∈ store.items a) : item ∈ store.values a := by
  unfold items at member
  split at member
  · next items stored => rwa [values_of_payload stored]
  · simp at member

theorem mem_values_of_mem_bindings {store : Store} {a : Addr} {entry : String × Value}
    (member : entry ∈ (store.scope a).bindings.entries) : entry.2 ∈ store.values a := by
  unfold scope at member
  split at member
  · next scope stored =>
      rw [values_of_payload stored]
      exact List.mem_map_of_mem member
  · simp [Table.empty] at member

/-! ## Storage handed over

A copy of a payload keeps the lists and maps directly in it, and copies those that it
meets inside a tuple.
-/

end Store

/-- The addresses in a tuple; other values hand over nothing. -/
def Value.handed : Value → List Addr
  | .tuple items => (Value.tuple items).addresses
  | _ => []

theorem Value.handed_subset (value : Value) : value.handed ⊆ value.addresses := by
  cases value with
  | tuple items => exact fun _ named => named
  | scalar x => exact List.nil_subset _
  | list a => exact List.nil_subset _
  | map a => exact List.nil_subset _

namespace Store

/-- The addresses in the tuples that the payload at `a` holds, in order. -/
def handed (store : Store) (a : Addr) : List Addr :=
  (store.values a).flatMap Value.handed

/-! ## Reachability -/

/-- An element or binding of the payload at `a` names `b`, itself or in a tuple. -/
def Edge (store : Store) (a b : Addr) : Prop :=
  ∃ value ∈ store.values a, b ∈ value.addresses

theorem edge_of_mem_handed {store : Store} {a b : Addr} (member : b ∈ store.handed a) :
    store.Edge a b := by
  obtain ⟨value, stored, named⟩ := List.mem_flatMap.mp member
  exact ⟨value, stored, value.handed_subset named⟩

/-- Elements and bindings lead from `a` to `b`. -/
abbrev Reaches (store : Store) : Addr → Addr → Prop :=
  Relation.ReflTransGen store.Edge

/-- Elements and bindings lead from `a` back to it. -/
def ReachesItself (store : Store) (a : Addr) : Prop :=
  Relation.TransGen store.Edge a a

/-- No element or binding of a payload in `region` names one outside it. -/
def Closed (store : Store) (region : Addr → Prop) : Prop :=
  ∀ a, region a → ∀ b, store.Edge a b → region b

theorem Closed.reaches {store : Store} {part : Addr → Prop} (closed : store.Closed part) {a : Addr}
    (inside : part a) {b : Addr} (reached : store.Reaches a b) : part b := by
  induction reached with
  | refl => exact inside
  | tail _ edge inductionHypothesis => exact closed _ inductionHypothesis _ edge

theorem closed_reaches (store : Store) (a : Addr) : store.Closed (store.Reaches a) :=
  fun _ reached _ edge => reached.tail edge

end Store

/-- Every address that a value reaches through tuples lies in `region`. -/
def Value.Within (region : Addr → Prop) (value : Value) : Prop :=
  ∀ a ∈ value.addresses, region a

namespace Value

@[simp] theorem within_scalar (region : Addr → Prop) (x : Scalar) :
    (Value.scalar x).Within region := by
  simp [Within]

@[simp] theorem within_list (region : Addr → Prop) (a : Addr) :
    (Value.list a).Within region ↔ region a := by
  simp [Within]

@[simp] theorem within_map (region : Addr → Prop) (a : Addr) :
    (Value.map a).Within region ↔ region a := by
  simp [Within]

@[simp] theorem within_tuple (region : Addr → Prop) (items : List Value) :
    (Value.tuple items).Within region ↔ ∀ item ∈ items, item.Within region := by
  simp only [Within, addresses_tuple, List.mem_flatMap]
  constructor
  · intro all item member a named
    exact all a ⟨item, member, named⟩
  · intro all a kept
    rcases kept with ⟨item, member, named⟩
    exact all item member a named

theorem within_anywhere (value : Value) : value.Within fun _ => True :=
  fun _ _ => trivial

end Value

theorem Store.Closed.within_values {store : Store} {region : Addr → Prop} {a : Addr}
    {value : Value} (closed : store.Closed region) (inside : region a)
    (member : value ∈ store.values a) : value.Within region :=
  fun b named => closed a inside b ⟨value, member, named⟩

end ScopedValues
