import Mathlib.Data.Finset.Prod
import ScopedValues.Proofs.Storage.Operations
import ScopedValues.Proofs.Views.Following
import ScopedValues.Store.Equal

/-!
Contract: equality of values as a function of the payloads that they lead to.

Owns the dependence of a comparison on the payloads it looks at, and the fuel that it
needs, whichever addresses it takes for equal unseen.

Main statement: storages that agree on a closed region compare the values of the
region alike, whatever their sizes.
-/

set_option autoImplicit false

namespace ScopedValues

/-! ## Comparing in step -/

/-- A relation of what two comparisons come to, if their parts come to what it relates. -/
structure InStep (related : Except Fault Bool → Except Fault Bool → Prop) : Prop where
  refl : ∀ outcome, related outcome outcome
  /-- A comparison that goes on only after a first one has succeeded. -/
  andThen : ∀ {first more rest further : Except Fault Bool}, related first more →
    related rest further →
      related (do if ← first then rest else .ok false) (do if ← more then further else .ok false)

/-- A comparison that has come to an end comes to the same end with more fuel. -/
theorem inStep_settles : InStep Settles where
  refl := .refl
  andThen first rest := first.bind fun same => by
    cases same with
    | false => exact .refl _
    | true => exact rest

/-- What has been found equal is found equal again. -/
theorem inStep_found : InStep fun first more => first = .ok true → more = .ok true where
  refl _ found := found
  andThen first rest found := by
    obtain ⟨same, compared, goesOn⟩ := bind_eq_ok found
    cases same with
    | false => cases goesOn
    | true =>
        rw [first compared]
        exact rest goesOn

section InStep

variable {agree more : Addr → Addr → Except Fault Bool}
  {related : Except Fault Bool → Except Fault Bool → Prop}

theorem Value.inStep_equalAllBy (inStep : InStep related) {items : List Value}
    (each : ∀ item ∈ items, ∀ other : Value,
      related (item.equalBy agree other) (item.equalBy more other)) :
    ∀ others, related (equalAllBy agree items others) (equalAllBy more items others) := by
  induction items with
  | nil => exact fun _ => inStep.refl _
  | cons item rest inductionHypothesis =>
      intro others
      rw [List.forall_mem_cons] at each
      cases others with
      | nil => exact inStep.refl _
      | cons other tail => exact inStep.andThen (each.1 other) (inductionHypothesis each.2 tail)

theorem Value.inStep_equalBy (inStep : InStep related)
    (each : ∀ a b, related (agree a b) (more a b)) (value : Value) :
    ∀ other, related (value.equalBy agree other) (value.equalBy more other) := by
  induction value with
  | scalar x => intro other; cases other <;> exact inStep.refl _
  | tuple items inductionHypothesis =>
      intro other
      cases other with
      | tuple others =>
          rw [equalBy, equalBy]
          split
          · exact inStep_equalAllBy inStep inductionHypothesis others
          · exact inStep.refl _
      | scalar y => exact inStep.refl _
      | list b => exact inStep.refl _
      | map b => exact inStep.refl _
  | list a =>
      intro other
      cases other with
      | list b => exact each a b
      | scalar y => exact inStep.refl _
      | tuple others => exact inStep.refl _
      | map b => exact inStep.refl _
  | map a =>
      intro other
      cases other with
      | map b => exact each a b
      | scalar y => exact inStep.refl _
      | tuple others => exact inStep.refl _
      | list b => exact inStep.refl _

theorem Table.inStep_includesBy (inStep : InStep related)
    (each : ∀ a b, related (agree a b) (more a b)) (other : Table Value)
    (entries : List (String × Value)) :
    related (includesBy agree other entries) (includesBy more other entries) := by
  induction entries with
  | nil => exact inStep.refl _
  | cons entry rest inductionHypothesis =>
      obtain ⟨key, value⟩ := entry
      rw [includesBy, includesBy]
      cases other.get? key with
      | none => exact inStep.refl _
      | some found =>
          exact inStep.andThen (Value.inStep_equalBy inStep each value found) inductionHypothesis

theorem Payload.inStep_equalBy (inStep : InStep related)
    (each : ∀ a b, related (agree a b) (more a b)) (left right : Payload) :
    related (left.equalBy agree right) (left.equalBy more right) := by
  cases left with
  | list items =>
      cases right with
      | list others =>
          rw [equalBy, equalBy]
          split
          · refine Value.inStep_equalAllBy inStep (fun item _ => ?_) others
            exact Value.inStep_equalBy inStep each item
          · exact inStep.refl _
      | scope inner => exact inStep.refl _
  | scope inner =>
      cases right with
      | list others => exact inStep.refl _
      | scope other =>
          rw [equalBy, equalBy]
          split
          · exact Table.inStep_includesBy inStep each _ _
          · exact inStep.refl _

end InStep

/-! ## Comparing within a region -/

section Region

variable {agree more : Addr → Addr → Except Fault Bool} {region : Addr → Prop}

theorem Value.equalAllBy_congr {items : List Value}
    (each : ∀ item ∈ items, ∀ other : Value, other.Within region →
      item.equalBy agree other = item.equalBy more other) :
    ∀ others : List Value, (∀ other ∈ others, other.Within region) →
      equalAllBy agree items others = equalAllBy more items others := by
  induction items with
  | nil => exact fun _ _ => rfl
  | cons item rest inductionHypothesis =>
      intro others within
      rw [List.forall_mem_cons] at each
      cases others with
      | nil => rfl
      | cons other tail =>
          rw [List.forall_mem_cons] at within
          rw [equalAllBy, equalAllBy, each.1 other within.1,
            inductionHypothesis each.2 tail within.2]

theorem Value.equalBy_congr (same : ∀ a b, region a → region b → agree a b = more a b)
    (value : Value) (within : value.Within region) :
    ∀ other, other.Within region → value.equalBy agree other = value.equalBy more other := by
  induction value with
  | scalar x => intro other _; cases other <;> rfl
  | tuple items inductionHypothesis =>
      intro other withinToo
      cases other with
      | tuple others =>
          rw [within_tuple] at within withinToo
          rw [equalBy, equalBy, equalAllBy_congr
            (fun item member => inductionHypothesis item member (within item member))
            others withinToo]
      | scalar y => rfl
      | list b => rfl
      | map b => rfl
  | list a =>
      intro other withinToo
      cases other with
      | list b => exact same a b (within a (by simp)) (withinToo b (by simp))
      | scalar y => rfl
      | tuple others => rfl
      | map b => rfl
  | map a =>
      intro other withinToo
      cases other with
      | map b => exact same a b (within a (by simp)) (withinToo b (by simp))
      | scalar y => rfl
      | tuple others => rfl
      | list b => rfl

theorem Table.includesBy_congr (same : ∀ a b, region a → region b → agree a b = more a b)
    {other : Table Value} (otherWithin : ∀ entry ∈ other.entries, entry.2.Within region)
    {entries : List (String × Value)} (within : ∀ entry ∈ entries, entry.2.Within region) :
    includesBy agree other entries = includesBy more other entries := by
  induction entries with
  | nil => rfl
  | cons entry rest inductionHypothesis =>
      obtain ⟨key, value⟩ := entry
      rw [List.forall_mem_cons] at within
      rw [includesBy, includesBy]
      cases bound : other.get? key with
      | none => rfl
      | some found =>
          have foundWithin := otherWithin _ (mem_of_get? bound)
          simp only
          rw [Value.equalBy_congr same value within.1 found foundWithin,
            inductionHypothesis within.2]

theorem Payload.equalBy_congr (same : ∀ a b, region a → region b → agree a b = more a b)
    {left right : Payload} (leftWithin : ∀ value ∈ left.values, value.Within region)
    (rightWithin : ∀ value ∈ right.values, value.Within region) :
    left.equalBy agree right = left.equalBy more right := by
  cases left with
  | list items =>
      cases right with
      | list others =>
          have each : ∀ item ∈ items, ∀ other : Value, other.Within region →
              item.equalBy agree other = item.equalBy more other :=
            fun item member => Value.equalBy_congr same item (leftWithin item member)
          rw [equalBy, equalBy, Value.equalAllBy_congr each others rightWithin]
      | scope inner => rfl
  | scope inner =>
      cases right with
      | list others => rfl
      | scope other =>
          have included := Table.includesBy_congr same
            (fun entry member => rightWithin entry.2 (List.mem_map_of_mem member))
            fun entry member => leftWithin entry.2 (List.mem_map_of_mem member)
          rw [equalBy, equalBy, included]

end Region

namespace Store

/-- What comparing the payloads at two different addresses gives. -/
def agreePayloads (store : Store) (agree : Addr → Addr → Except Fault Bool) (a b : Addr) :
    Except Fault Bool := do
  let left ← store.readPayload a
  let right ← store.readPayload b
  left.equalBy agree right

theorem agreeWithin_succ (store : Store) (fuel : Nat) (a b : Addr) :
    store.agreeWithin (fuel + 1) a b =
      if a = b then .ok true else store.agreePayloads (store.agreeWithin fuel) a b :=
  rfl

/-- Compares what two addresses hold, where `unseen` tells which addresses are equal without a
look at what they hold; `fuel` bounds the nesting. -/
def compareWithin (store : Store) (unseen : Addr → Addr → Bool) :
    Nat → Addr → Addr → Except Fault Bool
  | 0, _, _ => .error .endless
  | fuel + 1, a, b =>
      if unseen a b then .ok true else store.agreePayloads (store.compareWithin unseen fuel) a b

/-- Equality is the comparison in which an address is equal to itself unseen. -/
theorem agreeWithin_eq_compareWithin (store : Store) (fuel : Nat) :
    store.agreeWithin fuel = store.compareWithin (· == ·) fuel := by
  induction fuel with
  | zero => rfl
  | succ fuel inductionHypothesis =>
      funext a b
      rw [agreeWithin_succ, compareWithin, inductionHypothesis]
      simp only [beq_iff_eq]

theorem settles_compareWithin (store : Store) (unseen : Addr → Addr → Bool) (fuel : Nat) :
    ∀ a b, Settles (store.compareWithin unseen fuel a b)
      (store.compareWithin unseen (fuel + 1) a b) := by
  induction fuel with
  | zero => exact fun _ _ => .endless _
  | succ fuel inductionHypothesis =>
      intro a b
      rw [compareWithin, compareWithin]
      split
      · exact .refl _
      · refine (Settles.refl (store.readPayload a)).bind fun left => ?_
        refine (Settles.refl (store.readPayload b)).bind fun right => ?_
        exact Payload.inStep_equalBy inStep_settles inductionHypothesis left right

/-- What is found equal is found equal too when more is equal unseen. -/
theorem compareWithin_of_unseen {store : Store} {unseen more : Addr → Addr → Bool}
    (unseenToo : ∀ a b, unseen a b = true → more a b = true) (fuel : Nat) :
    ∀ a b, store.compareWithin unseen fuel a b = .ok true →
      store.compareWithin more fuel a b = .ok true := by
  induction fuel with
  | zero => exact fun _ _ impossible => by cases impossible
  | succ fuel inductionHypothesis =>
      intro a b found
      rw [compareWithin] at found ⊢
      by_cases same : more a b = true
      · rw [if_pos same]
      · rw [if_neg (mt (unseenToo a b) same)] at found
        obtain ⟨left, leftRead, found⟩ := bind_eq_ok found
        obtain ⟨right, rightRead, found⟩ := bind_eq_ok found
        rw [if_neg same, agreePayloads, leftRead, rightRead]
        exact Payload.inStep_equalBy inStep_found inductionHypothesis left right found

theorem Agree.agreePayloads_congr {region : Addr → Prop} {before after : Store}
    (view : Agree region before after) {agree more : Addr → Addr → Except Fault Bool}
    (same : ∀ a b, region a → region b → agree a b = more a b) {a b : Addr} (left : region a)
    (right : region b) : after.agreePayloads agree a b = before.agreePayloads more a b := by
  rw [agreePayloads, agreePayloads, view.readPayload_eq left, view.readPayload_eq right]
  cases leftRead : before.readPayload a with
  | error fault => rfl
  | ok first =>
      cases rightRead : before.readPayload b with
      | error fault => rfl
      | ok second =>
          exact Payload.equalBy_congr same (view.values_within left leftRead)
            (view.values_within right rightRead)

theorem Agree.agreeWithin_eq {region : Addr → Prop} {before after : Store}
    (view : Agree region before after) (fuel : Nat) :
    ∀ a b, region a → region b → after.agreeWithin fuel a b = before.agreeWithin fuel a b := by
  induction fuel with
  | zero => exact fun _ _ _ _ => rfl
  | succ fuel inductionHypothesis =>
      intro a b left right
      rw [agreeWithin_succ, agreeWithin_succ,
        view.agreePayloads_congr inductionHypothesis left right]

/-- Fuel beyond the number of pairs of payloads makes no difference to comparing. -/
theorem compareWithin_eq_of_size_le {store : Store} (unseen : Addr → Addr → Bool)
    {region : Addr → Prop} (present : ∀ a, region a → a < store.size)
    (closed : store.Closed region) {fuel more : Nat} (enough : store.size * store.size ≤ fuel)
    (enoughToo : store.size * store.size ≤ more) :
    ∀ a b, region a → region b →
      store.compareWithin unseen fuel a b = store.compareWithin unseen more a b := by
  have view := Agree.refl_of_closed present closed
  have card := card_addressesOf_le store region
  have pairs : (store.addressesOf region ×ˢ store.addressesOf region).card ≤
      store.size * store.size := by
    rw [Finset.card_product]
    exact Nat.mul_le_mul card card
  have inPairs : ∀ a b, region a → region b →
      (a, b) ∈ store.addressesOf region ×ˢ store.addressesOf region := fun a b left right =>
    Finset.mem_product.mpr ⟨(mem_addressesOf present).mpr left, (mem_addressesOf present).mpr right⟩
  intro a b left right
  refine solve_eq_of_card_le (store.addressesOf region ×ˢ store.addressesOf region)
    (fun fuel pair => store.compareWithin unseen fuel pair.1 pair.2)
    (fun fuel pair => settles_compareWithin store unseen fuel pair.1 pair.2) ?_
    (pairs.trans enough) (pairs.trans enoughToo) (a, b) (inPairs a b left right)
  intro fuel more same pair member
  obtain ⟨inLeft, inRight⟩ := Finset.mem_product.mp member
  rw [compareWithin, compareWithin,
    view.agreePayloads_congr (fun c d first second => same (c, d) (inPairs c d first second))
      ((mem_addressesOf present).mp inLeft) ((mem_addressesOf present).mp inRight)]

/-- Storages that agree on a region compare its values alike. -/
theorem Agree.equal_eq {region : Addr → Prop} {before after : Store}
    (view : Agree region before after) {x y : Value} (left : x.Within region)
    (right : y.Within region) : after.equal x y = before.equal x y := by
  refine Value.equalBy_congr (fun a b first second => ?_) x left y right
  have larger := Nat.mul_le_mul view.size view.size
  rw [view.agreeWithin_eq _ a b first second, agreeWithin_eq_compareWithin,
    agreeWithin_eq_compareWithin]
  exact compareWithin_eq_of_size_le _ view.present view.closed (by omega) (by omega) a b first
    second

end Store

end ScopedValues
