import ScopedValues.Proofs.Storage.Fuel
import ScopedValues.Proofs.Storage.Sound
import ScopedValues.Store.Unfold

/-!
Contract: the tree of a value as a function of the payloads that it leads to.

Owns the agreement of two storages on a region that is closed under elements and
bindings, and the fuel that following addresses needs.

Main statement: storages that agree on a closed region give every value of the region
the same tree, whatever their sizes.
-/

set_option autoImplicit false

namespace ScopedValues

theorem mapM_congr {α β : Type} {first second : α → Except Fault β} {items : List α}
    (same : ∀ x ∈ items, first x = second x) : items.mapM first = items.mapM second := by
  induction items with
  | nil => rfl
  | cons x rest inductionHypothesis =>
      rw [List.forall_mem_cons] at same
      rw [List.mapM_cons, List.mapM_cons, same.1, inductionHypothesis same.2]

/-! ## Following by steps -/

namespace Value

variable {ν : Type} {follow more : Addr → Except Fault (Tree ν)}

theorem unfoldAllBy_eq_mapM (follow : Addr → Except Fault (Tree ν)) (items : List Value) :
    unfoldAllBy follow items = items.mapM (unfoldBy follow) := by
  induction items with
  | nil => rfl
  | cons item rest inductionHypothesis =>
      rw [List.mapM_cons, unfoldAllBy, inductionHypothesis]

theorem unfoldEntriesBy_eq_mapM (follow : Addr → Except Fault (Tree ν))
    (entries : List (String × Value)) :
    unfoldEntriesBy follow entries =
      entries.mapM fun entry => return (entry.1, ← entry.2.unfoldBy follow) := by
  induction entries with
  | nil => rfl
  | cons entry rest inductionHypothesis =>
      obtain ⟨key, value⟩ := entry
      rw [List.mapM_cons, unfoldEntriesBy, inductionHypothesis, bind_assoc]
      simp only [pure_bind]

theorem settles_unfoldBy (each : ∀ a, Settles (follow a) (more a)) (value : Value) :
    Settles (value.unfoldBy follow) (value.unfoldBy more) := by
  induction value with
  | scalar x => exact .refl _
  | tuple items inductionHypothesis =>
      rw [unfoldBy, unfoldBy, unfoldAllBy_eq_mapM, unfoldAllBy_eq_mapM]
      exact (Settles.mapM inductionHypothesis).bind fun _ => .refl _
  | list a => exact each a
  | map a => exact each a

theorem settles_unfoldEntriesBy (each : ∀ a, Settles (follow a) (more a))
    (entries : List (String × Value)) :
    Settles (unfoldEntriesBy follow entries) (unfoldEntriesBy more entries) := by
  rw [unfoldEntriesBy_eq_mapM, unfoldEntriesBy_eq_mapM]
  exact Settles.mapM fun entry _ => (settles_unfoldBy each entry.2).bind fun _ => .refl _

theorem unfoldBy_congr {region : Addr → Prop} (same : ∀ a, region a → follow a = more a)
    (value : Value) (within : value.Within region) :
    value.unfoldBy follow = value.unfoldBy more := by
  induction value with
  | scalar x => rfl
  | tuple items inductionHypothesis =>
      rw [within_tuple] at within
      rw [unfoldBy, unfoldBy, unfoldAllBy_eq_mapM, unfoldAllBy_eq_mapM,
        mapM_congr fun item member => inductionHypothesis item member (within item member)]
  | list a => exact same a (within a (by simp))
  | map a => exact same a (within a (by simp))

end Value

namespace Store

variable {ν : Type}

/-- What following the addresses in one payload gives. -/
def followPayload (note : Note ν) (follow : Addr → Except Fault (Tree ν)) (a : Addr) :
    Payload → Except Fault (Tree ν)
  | .list items => return .list (← Value.unfoldAllBy follow items)
  | .scope inner => do
      let noted ← note a inner
      return .map noted (← Value.unfoldEntriesBy follow inner.bindings.entries)

theorem followWithin_succ (store : Store) (note : Note ν) (fuel : Nat) (a : Addr) :
    store.followWithin note (fuel + 1) a =
      store.readPayload a >>= followPayload note (store.followWithin note fuel) a := by
  rw [followWithin]
  rfl

theorem settles_followPayload {follow more : Addr → Except Fault (Tree ν)} (note : Note ν)
    (each : ∀ a, Settles (follow a) (more a)) (a : Addr) (payload : Payload) :
    Settles (followPayload note follow a payload) (followPayload note more a payload) := by
  cases payload with
  | list items =>
      rw [followPayload, followPayload, Value.unfoldAllBy_eq_mapM, Value.unfoldAllBy_eq_mapM]
      exact (Settles.mapM fun item _ => Value.settles_unfoldBy each item).bind fun _ => .refl _
  | scope inner =>
      refine (Settles.refl (note a inner)).bind fun _ => ?_
      exact (Value.settles_unfoldEntriesBy each _).bind fun _ => .refl _

theorem settles_followWithin (store : Store) (note : Note ν) (fuel : Nat) :
    ∀ a, Settles (store.followWithin note fuel a) (store.followWithin note (fuel + 1) a) := by
  induction fuel with
  | zero => exact fun _ => .endless _
  | succ fuel inductionHypothesis =>
      intro a
      rw [followWithin_succ, followWithin_succ]
      exact (Settles.refl _).bind fun payload =>
        settles_followPayload note inductionHypothesis a payload

theorem followPayload_congr {follow more : Addr → Except Fault (Tree ν)} {region : Addr → Prop}
    (note : Note ν) (same : ∀ a, region a → follow a = more a) (a : Addr) (payload : Payload)
    (within : ∀ value ∈ payload.values, value.Within region) :
    followPayload note follow a payload = followPayload note more a payload := by
  cases payload with
  | list items =>
      have each : ∀ item ∈ items, item.unfoldBy follow = item.unfoldBy more :=
        fun item member => Value.unfoldBy_congr same item (within item member)
      rw [followPayload, followPayload, Value.unfoldAllBy_eq_mapM, Value.unfoldAllBy_eq_mapM,
        mapM_congr each]
  | scope inner =>
      have entries : ∀ entry ∈ inner.bindings.entries,
          (return (entry.1, ← entry.2.unfoldBy follow) : Except Fault (String × Tree ν)) =
            return (entry.1, ← entry.2.unfoldBy more) := by
        intro entry member
        rw [Value.unfoldBy_congr same entry.2 (within entry.2 (List.mem_map_of_mem member))]
      rw [followPayload, followPayload, Value.unfoldEntriesBy_eq_mapM,
        Value.unfoldEntriesBy_eq_mapM, mapM_congr entries]

/-! ## Agreement on a region -/

/-- `after` has the payloads of the region, which is closed, and lends them out as before. -/
structure Agree (region : Addr → Prop) (before after : Store) : Prop where
  size : before.size ≤ after.size
  present : ∀ a, region a → a < before.size
  closed : before.Closed region
  payloads : ∀ a, region a → after.payloads[a]? = before.payloads[a]?
  lent : ∀ a, region a → (a ∈ after.lent ↔ a ∈ before.lent)

namespace Agree

variable {region : Addr → Prop} {before after : Store}

theorem free_eq (agree : Agree region before after) {a : Addr} (inside : region a) :
    after.free a = before.free a := by
  have lent := agree.lent a inside
  by_cases out : a ∈ before.lent
  · simp [free, out, lent.mpr out]
  · have free : a ∉ after.lent := fun held => out (lent.mp held)
    simp [Store.free, out, free]

theorem readPayload_eq (agree : Agree region before after) {a : Addr} (inside : region a) :
    after.readPayload a = before.readPayload a := by
  rw [readPayload, readPayload, agree.free_eq inside, agree.payloads a inside]

theorem values_within (agree : Agree region before after) {a : Addr} (inside : region a)
    {payload : Payload} (read : before.readPayload a = .ok payload) :
    ∀ value ∈ payload.values, value.Within region := by
  intro value member
  have stored : before.payloads[a]? = some payload := by
    have inArray : a < before.payloads.size := agree.present a inside
    have found := Array.getElem?_eq_getElem inArray
    unfold readPayload at read
    rw [found] at read ⊢
    cases free : before.free a with
    | error fault =>
        rw [free] at read
        cases read
    | ok _ =>
        rw [free] at read
        exact congrArg some (Except.ok.inj read)
  rw [← values_of_payload stored] at member
  exact agree.closed.within_values inside member

theorem followWithin_eq (agree : Agree region before after) (note : Note ν) (fuel : Nat) :
    ∀ a, region a → after.followWithin note fuel a = before.followWithin note fuel a := by
  induction fuel with
  | zero => exact fun _ _ => rfl
  | succ fuel inductionHypothesis =>
      intro a inside
      rw [followWithin_succ, followWithin_succ, agree.readPayload_eq inside]
      cases read : before.readPayload a with
      | error fault => rfl
      | ok payload =>
          exact followPayload_congr note inductionHypothesis a payload
            (agree.values_within inside read)

theorem restrict (agree : Agree region before after) {part : Addr → Prop}
    (inside : ∀ a, part a → region a) (closed : before.Closed part) : Agree part before after where
  size := agree.size
  present a member := agree.present a (inside a member)
  closed := closed
  payloads a member := agree.payloads a (inside a member)
  lent a member := agree.lent a (inside a member)

theorem refl_of_closed (present : ∀ a, region a → a < before.size)
    (closed : before.Closed region) : Agree region before before :=
  ⟨Nat.le_refl _, present, closed, fun _ _ => rfl, fun _ _ => Iff.rfl⟩

end Agree

open Classical in
/-- The addresses of a region. -/
noncomputable def addressesOf (store : Store) (region : Addr → Prop) : Finset Addr :=
  (Finset.range store.size).filter region

theorem mem_addressesOf {store : Store} {region : Addr → Prop}
    (present : ∀ a, region a → a < store.size) {a : Addr} :
    a ∈ store.addressesOf region ↔ region a := by
  classical
  simp only [addressesOf, Finset.mem_filter, Finset.mem_range]
  exact ⟨fun both => both.2, fun inside => ⟨present a inside, inside⟩⟩

theorem card_addressesOf_le (store : Store) (region : Addr → Prop) :
    (store.addressesOf region).card ≤ store.size := by
  classical
  calc
    (store.addressesOf region).card ≤ (Finset.range store.size).card :=
      Finset.card_le_card (Finset.filter_subset _ _)
    _ = store.size := Finset.card_range _

/-- Fuel beyond the number of payloads makes no difference to following. -/
theorem followWithin_eq_of_size_le {store : Store} {region : Addr → Prop}
    (present : ∀ a, region a → a < store.size) (closed : store.Closed region) (note : Note ν)
    {fuel more : Nat} (enough : store.size ≤ fuel) (enoughToo : store.size ≤ more) :
    ∀ a, region a → store.followWithin note fuel a = store.followWithin note more a := by
  have card := card_addressesOf_le store region
  have agree := Agree.refl_of_closed present closed
  intro a inside
  refine solve_eq_of_card_le (store.addressesOf region) (store.followWithin note)
    (settles_followWithin store note) ?_ (card.trans enough) (card.trans enoughToo) a
    ((mem_addressesOf present).mpr inside)
  intro fuel more same b member
  rw [followWithin_succ, followWithin_succ]
  have insideToo := (mem_addressesOf present).mp member
  cases read : store.readPayload b with
  | error fault => rfl
  | ok payload =>
      exact followPayload_congr note
        (fun c insideRegion => same c ((mem_addressesOf present).mpr insideRegion)) b payload
        (agree.values_within insideToo read)

/-- Fuel is never short, so what follows from an address is what one look at it makes it. -/
theorem followWithin_size_eq {store : Store} (typed : store.Typed) (note : Note ν) {a : Addr}
    (present : a < store.size) :
    store.followWithin note (store.size + 1) a =
      store.readPayload a >>= followPayload note (store.followWithin note (store.size + 1)) a := by
  have enough : ∀ a, a < store.size →
      store.followWithin note store.size a = store.followWithin note (store.size + 1) a :=
    followWithin_eq_of_size_le (fun _ inside => inside) typed.closed _ (Nat.le_refl _)
      (Nat.le_succ _)
  rw [followWithin_succ]
  cases read : store.readPayload a with
  | error fault => rfl
  | ok payload =>
      have view : Agree (· < store.size) store store :=
        Agree.refl_of_closed (fun _ inside => inside) typed.closed
      exact followPayload_congr _ enough a payload (view.values_within present read)

/-- Storages that agree on a region give its values the same trees. -/
theorem Agree.unfold_eq {region : Addr → Prop} {before after : Store}
    (agree : Agree region before after) (note : Note ν) {value : Value}
    (within : value.Within region) : after.unfold note value = before.unfold note value := by
  refine Value.unfoldBy_congr (fun a inside => ?_) value within
  have larger := agree.size
  rw [agree.followWithin_eq note _ a inside]
  exact followWithin_eq_of_size_le agree.present agree.closed note (by omega) (by omega) a inside

end Store

end ScopedValues
