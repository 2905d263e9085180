import ScopedValues.Proofs.Storage.Addresses
import ScopedValues.Table.Lemmas

/-!
Contract: how many tuple slots each piece of storage stands in.

Owns the slots of storage, counted over the tuples in all payloads, the slots in hand,
what storage affords to have in hand, and the effect on it of a new payload and of a write.

Main statements: a new payload affords its own address in hand, once; a write affords
whatever the new payload does not take of the old one and of what was given.

The counts are bounds: a value that is dropped leaves its slots unused.
-/

set_option autoImplicit false

namespace ScopedValues

/-! ## Slots in payloads -/

@[simp] theorem Value.handed_tuple (items : List Value) :
    (Value.tuple items).handed = items.flatMap addresses := by
  rw [handed, addresses_tuple]

section Handed

variable (c : Addr)

theorem Value.count_handed_le (value : Value) :
    value.handed.count c ≤ value.addresses.count c := by
  cases value <;> simp [handed]

theorem Value.count_handedAll_le (values : List Value) :
    (values.flatMap handed).count c ≤ (values.flatMap addresses).count c := by
  induction values with
  | nil => simp
  | cons value rest inductionHypothesis =>
      have here := count_handed_le c value
      simp only [List.flatMap_cons, List.count_append]
      omega

end Handed

/-- The addresses in the tuples that a payload holds, in order. -/
def Payload.handed (payload : Payload) : List Addr :=
  payload.values.flatMap Value.handed

/-- The addresses in the tuples that a table holds, in order. -/
def Table.handed (table : Table Value) : List Addr :=
  (table.entries.map Prod.snd).flatMap Value.handed

namespace Store

/-- The addresses in the tuples of all payloads. -/
def slots (store : Store) : List Addr :=
  store.payloads.toList.flatMap Payload.handed

theorem handed_of_payload {store : Store} {a : Addr} {payload : Payload}
    (stored : store.payloads[a]? = some payload) : store.handed a = payload.handed := by
  rw [handed, values_of_payload stored, Payload.handed]

theorem slots_allocate (store : Store) (payload : Payload) :
    (store.allocate payload).2.slots = store.slots ++ payload.handed := by
  simp [slots, allocate]

/-- The same storage with another payload at `a`, if there is one. -/
def write (store : Store) (a : Addr) (payload : Payload) : Store :=
  { store with payloads := store.payloads.setIfInBounds a payload }

section Counts

variable (c : Addr)

theorem count_payloads_set (payloads : List Payload) (a : Nat) (payload : Payload) :
    ((payloads.set a payload).flatMap Payload.handed).count c +
        (payloads[a]?.elim [] Payload.handed).count c ≤
      (payloads.flatMap Payload.handed).count c + payload.handed.count c := by
  induction payloads generalizing a with
  | nil => simp
  | cons first rest inductionHypothesis =>
      cases a with
      | zero =>
          simp only [List.set_cons_zero, List.flatMap_cons, List.count_append,
            List.getElem?_cons_zero, Option.elim_some]
          omega
      | succ a =>
          have others := inductionHypothesis a
          simp only [List.set_cons_succ, List.flatMap_cons, List.count_append,
            List.getElem?_cons_succ]
          omega

/-- A write gives up the slots of the old payload for those of the new one. -/
theorem count_slots_write (store : Store) (a : Addr) (payload : Payload) :
    (store.write a payload).slots.count c + (store.handed a).count c ≤
      store.slots.count c + payload.handed.count c := by
  have exchanged := count_payloads_set c store.payloads.toList a payload
  have old : store.handed a = store.payloads.toList[a]?.elim [] Payload.handed := by
    rw [Array.getElem?_toList]
    cases stored : store.payloads[a]? with
    | none => simp [handed, values, stored]
    | some payload => exact handed_of_payload stored
  rw [old]
  simpa [slots, write] using exchanged

theorem count_items_le (store : Store) (a : Addr) :
    ((store.items a).flatMap Value.handed).count c ≤ (store.handed a).count c := by
  cases stored : store.payloads[a]? with
  | none => simp [items, stored]
  | some payload =>
      rw [handed_of_payload stored]
      cases payload with
      | list items => simp [Store.items, stored, Payload.handed, Payload.values]
      | scope inner => simp [items, stored]

theorem count_bindings_le (store : Store) (a : Addr) :
    (store.scope a).bindings.handed.count c ≤ (store.handed a).count c := by
  cases stored : store.payloads[a]? with
  | none => simp [scope, stored, Table.handed, Table.empty]
  | some payload =>
      rw [handed_of_payload stored]
      cases payload with
      | list items => simp [scope, stored, Table.handed, Table.empty]
      | scope inner => simp [scope, stored, Table.handed, Payload.handed, Payload.values]

/-! ## Slots in lists and tables -/

theorem count_set (items : List Value) (position : Nat) (value : Value) :
    ((items.set position value).flatMap Value.handed).count c +
        (items.getD position Value.none).handed.count c ≤
      (items.flatMap Value.handed).count c + value.handed.count c := by
  induction items generalizing position with
  | nil => simp [Value.none, Value.handed]
  | cons first rest inductionHypothesis =>
      cases position with
      | zero =>
          simp only [List.set_cons_zero, List.flatMap_cons, List.count_append,
            List.getD_cons_zero]
          omega
      | succ position =>
          have others := inductionHypothesis position
          simp only [List.set_cons_succ, List.flatMap_cons, List.count_append,
            List.getD_cons_succ]
          omega

theorem count_eraseIdx (items : List Value) (position : Nat) :
    ((items.eraseIdx position).flatMap Value.handed).count c +
        (items.getD position Value.none).handed.count c =
      (items.flatMap Value.handed).count c := by
  induction items generalizing position with
  | nil => simp [Value.none, Value.handed]
  | cons first rest inductionHypothesis =>
      cases position with
      | zero =>
          simp only [List.eraseIdx_cons_zero, List.flatMap_cons, List.count_append,
            List.getD_cons_zero]
          omega
      | succ position =>
          have others := inductionHypothesis position
          simp only [List.eraseIdx_cons_succ, List.flatMap_cons, List.count_append,
            List.getD_cons_succ]
          omega

end Counts

end Store

namespace Table

variable (c : Addr) (table : Table Value) (key : String)

theorem count_insert (value : Value) :
    (table.insert key value).handed.count c +
        ((table.get? key).getD Value.none).handed.count c =
      table.handed.count c + value.handed.count c := by
  obtain ⟨entries⟩ := table
  induction entries with
  | nil => simp [insert, insert.place, handed, get?, Value.none, Value.handed]
  | cons head rest inductionHypothesis =>
      simp only [insert, handed, get?] at inductionHypothesis
      by_cases same : head.1 = key
      · simp only [insert, insert.place, handed, get?, same, beq_self_eq_true, if_true,
          List.map_cons, List.flatMap_cons, List.count_append, List.find?_cons_of_pos,
          Option.map_some, Option.getD_some]
        omega
      · have other : (head.1 == key) = false := by simpa using same
        simp only [insert, insert.place, handed, get?, other, Bool.false_eq_true, if_false,
          List.map_cons, List.flatMap_cons, List.count_append, List.find?_cons]
        omega

theorem count_erase :
    (table.erase key).handed.count c + ((table.get? key).getD Value.none).handed.count c =
      table.handed.count c := by
  obtain ⟨entries⟩ := table
  induction entries with
  | nil => simp [erase, handed, get?, Value.none, Value.handed]
  | cons head rest inductionHypothesis =>
      simp only [erase, handed, get?] at inductionHypothesis
      by_cases same : head.1 = key
      · simp only [erase, handed, get?, same, beq_self_eq_true, List.eraseP_cons_of_pos,
          List.map_cons, List.flatMap_cons, List.count_append, List.find?_cons_of_pos,
          Option.map_some, Option.getD_some]
        omega
      · have other : (head.1 == key) = false := by simpa using same
        simp only [erase, handed, get?, other, Bool.false_eq_true, not_false_eq_true,
          List.eraseP_cons_of_neg, List.map_cons, List.flatMap_cons, List.count_append,
          List.find?_cons]
        omega

theorem handed_declare : (table.declare key Value.none).handed = table.handed := by
  unfold declare
  split
  · rfl
  · simp [handed, Value.none, Value.handed]

end Table

/-! ## What storage affords -/

/-- How many slots each address may have beyond the one that it may have once it is there. -/
abbrev Credit := Addr → Int

/-- No slot beyond the one. -/
def Credit.none : Credit :=
  fun _ => 0

/-- The credit that is left when `reserve` is set aside. -/
def Credit.less (credit : Credit) (reserve : List Addr) : Credit :=
  fun a => credit a - reserve.count a

/-- The credit with what the addresses of `debt` may have in addition. -/
def Credit.more (credit : Credit) (debt : List Addr) : Credit :=
  fun a => credit a + debt.count a

namespace Store

/-- No address stands in more slots, in storage and in `hand`, than it may have. -/
def Affords (credit : Credit) (store : Store) (hand : List Addr) : Prop :=
  ∀ a, ((store.slots.count a + hand.count a : Nat) : Int) ≤
    credit a + if a < store.size then 1 else 0

/-- Storage has grown, and what is lent out is the same and as it was. -/
structure Shelters (before after : Store) : Prop where
  size : before.size ≤ after.size
  lent : after.lent = before.lent
  kept : ∀ a ∈ before.lent, a < before.size → after.payloads[a]? = before.payloads[a]?

theorem Shelters.refl (store : Store) : Shelters store store :=
  ⟨Nat.le_refl _, rfl, fun _ _ _ => rfl⟩

theorem Shelters.trans {before middle after : Store} (first : Shelters before middle)
    (second : Shelters middle after) : Shelters before after where
  size := Nat.le_trans first.size second.size
  lent := second.lent.trans first.lent
  kept a lent present := by
    have still : a ∈ middle.lent := first.lent ▸ lent
    rw [second.kept a still (Nat.lt_of_lt_of_le present first.size), first.kept a lent present]

section Affording

variable {credit : Credit} {store : Store} {given taken hand reserve : List Addr}

theorem affords_less :
    store.Affords (credit.less reserve) hand ↔ store.Affords credit (reserve ++ hand) := by
  refine forall_congr' fun a => ?_
  simp only [Credit.less, List.count_append]
  omega

theorem affords_none_more {debt : List Addr} :
    store.Affords (Credit.none.more debt) hand ↔
      ∀ a, store.slots.count a + hand.count a ≤ debt.count a + if a < store.size then 1 else 0 := by
  refine forall_congr' fun a => ?_
  simp only [Credit.more, Credit.none]
  split <;> omega

theorem affords_more :
    store.Affords (credit.more reserve) (reserve ++ hand) ↔ store.Affords credit hand := by
  refine forall_congr' fun a => ?_
  simp only [Credit.more, List.count_append]
  omega

theorem Affords.mono (affords : store.Affords credit given)
    (fewer : ∀ a, taken.count a ≤ given.count a) : store.Affords credit taken := by
  intro a
  have here := affords a
  have less := fewer a
  omega

/-- What is in hand can be dropped. -/
theorem Affords.drop (affords : store.Affords credit given) : store.Affords credit [] :=
  affords.mono fun _ => by simp

theorem shelters_allocate (store : Store) (payload : Payload) :
    store.Shelters (store.allocate payload).2 where
  size := by simp
  lent := rfl
  kept a _ present := payload_allocate_of_lt store payload a present

/-- A new payload takes the slots of its contents, and its address can be put into one. -/
theorem Affords.allocate {payload : Payload} (affords : store.Affords credit payload.handed) :
    (store.allocate payload).2.Affords credit [store.size] := by
  intro a
  have here := affords a
  rw [slots_allocate, List.count_append, size_allocate]
  by_cases new : store.size = a
  · subst new
    simp only [Nat.lt_irrefl, if_false, Nat.lt_succ_self, if_true, List.count_singleton_self]
      at here ⊢
    omega
  · rw [List.count_singleton, beq_false_of_ne new, if_neg Bool.false_ne_true]
    have range : a < store.size + 1 ↔ a < store.size :=
      ⟨fun before => Nat.lt_of_le_of_ne (Nat.le_of_lt_succ before) (Ne.symm new),
        Nat.lt_succ_of_lt⟩
    simp only [range]
    exact here

theorem shelters_write {a : Addr} (free : a ∉ store.lent) (payload : Payload) :
    store.Shelters (store.write a payload) where
  size := by simp [write, size]
  lent := rfl
  kept b lent _ := by
    have different : a ≠ b := fun same => free (same ▸ lent)
    simp [write, different]

/-- A write exchanges what is given, and the slots of the old payload, for those of the new. -/
theorem Affords.write {a : Addr} {payload : Payload} (affords : store.Affords credit given)
    (exchange : ∀ c, payload.handed.count c + taken.count c ≤
      (store.handed a).count c + given.count c) :
    (store.write a payload).Affords credit taken := by
  intro c
  have here := affords c
  have traded := exchange c
  have written := count_slots_write c store a payload
  have size : (store.write a payload).size = store.size := by simp [Store.write, Store.size]
  rw [size]
  omega

end Affording

end Store

end ScopedValues
