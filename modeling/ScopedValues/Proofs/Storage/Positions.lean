import ScopedValues.Context
import ScopedValues.Proofs.Numbers.Rounding
import ScopedValues.Proofs.Storage.Sequences

/-!
Contract: which position of a list an index names, by the number that it stands for.

Owns the position that reading and changing an element go to, and the one that removal takes.

Main statement: an element is read, replaced and changed in place exactly at the position that
its index names, and removed exactly at the one that removal takes; whatever names no position
is refused with the index and the length, and nothing is done.

A list is shorter than half of what a machine word can count. Numbers stop at the largest word
when they are made into positions, which is beyond every list.
-/

set_option autoImplicit false

namespace ScopedValues

namespace Index

variable {length position : Nat}

/-- The position that an index names, counted from the front. -/
inductive Names (length : Nat) : Index → Nat → Prop where
  | whole {position : Nat} (inside : position < length) : Names length (.whole position) position
  | number {x : Double} {position : Nat} (finite : x.isFinite = true)
      (rounded : towardZero x.exact = position) (inside : position < length) :
      Names length (.number x) position

/-- The position that removal takes. A number that rounds below zero counts from the end. -/
inductive Removes (length : Nat) : Option Index → Nat → Prop where
  | last {position : Nat} (last : position + 1 = length) : Removes length none position
  | front {index : Index} {position : Nat} (names : index.Names length position) :
      Removes length (some index) position
  | back {x : Double} {position : Nat} (finite : x.isFinite = true)
      (below : towardZero x.exact < 0) (counted : length + towardZero x.exact = position) :
      Removes length (some (.number x)) position

/-- The number that a refused removal reports; the last position is reported as minus one. -/
def reportedRemoval (index : Option Index) : Double :=
  (index.map reported).getD Double.negativeOne

/-! ## Machine words -/

/-- Short of the largest word, the whole part as a word is the whole part. -/
theorem wholeWord_of_lt {x : Double} (short : length < 2 ^ 63) (inside : x.wholeWord < length) :
    x.wholeWord = x.wholePart := by
  have word : Double.wordMax = 2 ^ 64 - 1 := rfl
  rw [Double.wholeWord] at inside ⊢
  omega

theorem wholeWord_of_wholePart_lt {x : Double} (short : length < 2 ^ 63)
    (inside : x.wholePart < length) : x.wholeWord = x.wholePart := by
  have word : Double.wordMax = 2 ^ 64 - 1 := rfl
  rw [Double.wholeWord]
  omega

theorem natAbs_truncated (x : Double) : x.truncated.natAbs = x.wholePart := by
  rw [Double.truncated]
  split <;> omega

/-! ## Resolution -/

theorem names_number_iff {x : Double} :
    (Index.number x).Names length position ↔
      x.isFinite = true ∧ x.truncated = position ∧ position < length := by
  rw [Double.truncated_eq_towardZero]
  constructor
  · rintro (_ | ⟨finite, rounded, inside⟩)
    exact ⟨finite, rounded, inside⟩
  · rintro ⟨finite, rounded, inside⟩
    exact .number finite rounded inside

/-- Resolution answers the position that is named. -/
theorem resolve_eq_ok_iff (short : length < 2 ^ 63) (index : Index) (position : Nat) :
    index.resolve length = .ok position ↔ index.Names length position := by
  cases index with
  | whole first =>
      rw [resolve]
      split
      · next inside =>
          constructor
          · intro same
            exact Except.ok.inj same ▸ .whole inside
          · rintro ⟨_⟩
            rfl
      · next outside =>
          refine iff_of_false (fun impossible => by cases impossible) ?_
          rintro ⟨inside⟩
          exact outside inside
  | number x =>
      rw [names_number_iff, resolve]
      split
      · next inside =>
          obtain ⟨finite, nonneg, inside⟩ := inside
          have word := wholeWord_of_lt short inside
          have whole := natAbs_truncated x
          rw [Except.ok.injEq]
          constructor
          · intro same
            exact ⟨finite, by omega, by omega⟩
          · rintro ⟨_, rounded, _⟩
            omega
      · next outside =>
          refine iff_of_false (fun impossible => by cases impossible) ?_
          rintro ⟨finite, rounded, inside⟩
          have whole := natAbs_truncated x
          have word := wholeWord_of_wholePart_lt short (show x.wholePart < length by omega)
          exact outside ⟨finite, by omega, by omega⟩

theorem resolve_cases (index : Index) (length : Nat) :
    (∃ position, index.resolve length = .ok position) ∨
      index.resolve length = .error (index.outOfRange length) := by
  cases index <;> rw [resolve] <;> split
  · exact .inl ⟨_, rfl⟩
  · exact .inr rfl
  · exact .inl ⟨_, rfl⟩
  · exact .inr rfl

/-- An index that names nothing is refused. -/
theorem resolve_of_unnamed (short : length < 2 ^ 63) {index : Index}
    (unnamed : ∀ position, ¬ index.Names length position) :
    index.resolve length = .error (.indexOutOfRange index.reported length) := by
  rcases resolve_cases index length with ⟨position, resolved⟩ | refused
  · exact absurd ((resolve_eq_ok_iff short index position).mp resolved) (unnamed position)
  · exact refused

/-! ## Removal -/

/-- An index that does not count from the end is removed where it is read. -/
theorem removes_iff_of_front {index : Index}
    (front : ∀ x, index = .number x → x.isFinite = true → 0 ≤ x.truncated) :
    Removes length (some index) position ↔ index.Names length position := by
  constructor
  · rintro (_ | names | ⟨finite, below, _⟩)
    · exact names
    · rw [← Double.truncated_eq_towardZero] at below
      exact absurd (front _ rfl finite) (not_le.mpr below)
  · exact .front

/-- A number below zero names nothing from the front. -/
theorem removes_iff_of_back {x : Double} (finite : x.isFinite = true) (below : x.truncated < 0) :
    Removes length (some (.number x)) position ↔ length + x.truncated = position := by
  constructor
  · rintro (_ | names | ⟨_, _, counted⟩)
    · obtain ⟨_, rounded, _⟩ := names_number_iff.mp names
      omega
    · rwa [Double.truncated_eq_towardZero]
  · intro counted
    rw [Double.truncated_eq_towardZero] at below counted
    exact .back finite below counted

theorem resolveFromEnd_of_back {x : Double} (short : length < 2 ^ 63) (finite : x.isFinite = true)
    (below : x.truncated < 0) :
    (Index.number x).resolveFromEnd length = .ok position ↔ length + x.truncated = position := by
  have whole := natAbs_truncated x
  have word : Double.wordMax = 2 ^ 64 - 1 := rfl
  rw [resolveFromEnd, if_pos ⟨finite, below⟩, Double.wholeWord]
  split
  · next inside =>
      rw [Except.ok.injEq]
      omega
  · next outside =>
      refine iff_of_false (fun impossible => by cases impossible) ?_
      omega

theorem resolveFromEnd_eq_ok_iff (short : length < 2 ^ 63) (index : Index) (position : Nat) :
    index.resolveFromEnd length = .ok position ↔ Removes length (some index) position := by
  by_cases back : ∃ x, index = .number x ∧ x.isFinite = true ∧ x.truncated < 0
  · obtain ⟨x, rfl, finite, below⟩ := back
    rw [resolveFromEnd_of_back short finite below, removes_iff_of_back finite below]
  · have front : ∀ x, index = .number x → x.isFinite = true → 0 ≤ x.truncated :=
      fun x same finite => not_lt.mp fun below => back ⟨x, same, finite, below⟩
    have resolved : index.resolveFromEnd length = index.resolve length := by
      cases index with
      | whole first => rfl
      | number x => exact if_neg fun behind => absurd behind.2 (not_lt.mpr (front x rfl behind.1))
    rw [resolved, resolve_eq_ok_iff short, removes_iff_of_front front]

/-- Resolution of a removal answers the position that the removal takes. -/
theorem resolveRemoval_eq_ok_iff (short : length < 2 ^ 63) (index : Option Index)
    (position : Nat) :
    resolveRemoval index length = .ok position ↔ Removes length index position := by
  cases index with
  | some index => exact resolveFromEnd_eq_ok_iff short index position
  | none =>
      rw [resolveRemoval]
      split
      · next some =>
          rw [Except.ok.injEq]
          constructor
          · intro same
            exact .last (by omega)
          · rintro ⟨last⟩
            omega
      · next empty =>
          refine iff_of_false (fun impossible => by cases impossible) ?_
          rintro ⟨last⟩
          omega

theorem resolveRemoval_cases (index : Option Index) (length : Nat) :
    (∃ position, resolveRemoval index length = .ok position) ∨
      resolveRemoval index length = .error (.indexOutOfRange (reportedRemoval index) length) := by
  rcases index with _ | (first | x)
  · rw [resolveRemoval]
    split
    · exact .inl ⟨_, rfl⟩
    · exact .inr rfl
  · exact resolve_cases (.whole first) length
  · rw [resolveRemoval, resolveFromEnd]
    split
    · split
      · exact .inl ⟨_, rfl⟩
      · exact .inr rfl
    · exact resolve_cases (.number x) length

/-- What removes nothing is refused. -/
theorem resolveRemoval_of_unnamed (short : length < 2 ^ 63) {index : Option Index}
    (unnamed : ∀ position, ¬ Removes length index position) :
    resolveRemoval index length = .error (.indexOutOfRange (reportedRemoval index) length) := by
  rcases resolveRemoval_cases index length with ⟨position, resolved⟩ | refused
  · exact absurd ((resolveRemoval_eq_ok_iff short index position).mp resolved) (unnamed position)
  · exact refused

/-- Numbers between minus one and zero name the first position. -/
theorem names_first {x : Double} (finite : x.isFinite = true) (above : -1 < x.exact)
    (below : x.exact < 0) (some : 0 < length) : (Index.number x).Names length 0 := by
  have atLeast := (towardZero_nonneg_iff x.exact).mpr above
  have atMost : ⌈x.exact⌉ ≤ 0 := Int.ceil_le.mpr (by simpa using below.le)
  have ceiling : towardZero x.exact = ⌈x.exact⌉ := if_neg (not_le.mpr below)
  exact .number finite (by rw [Nat.cast_zero]; omega) some

end Index

/-! ## Elements -/

namespace Store

variable {store : Store} {a : Addr} {index : Index} {position : Nat}

theorem getItem_of_free (free : a ∉ store.lent)
    (resolved : index.resolve (store.items a).length = .ok position) :
    store.getItem a index = store.copy ((store.items a).getD position Value.none) := by
  rw [getItem, readList_of_free free]
  change (Fault.ofRefusal (index.resolve (store.items a).length) >>= _) = _
  rw [resolved]
  rfl

section Refused

variable {reason : Refusal} (free : a ∉ store.lent)

include free

/-- What looks for a position in a list first does nothing else if there is none. -/
theorem position_of_refused {α : Type} (resolution : List Value → Except Refusal Nat)
    (refused : resolution (store.items a) = .error reason)
    (next : List Value → Nat → Except Fault α) :
    (do
      let items ← store.readList a
      let position ← Fault.ofRefusal (resolution items)
      next items position) = .error (.refused reason) := by
  rw [readList_of_free free]
  change (Fault.ofRefusal (resolution (store.items a)) >>= _) = _
  rw [refused]
  rfl

theorem getItem_of_refused (refused : index.resolve (store.items a).length = .error reason) :
    store.getItem a index = .error (.refused reason) :=
  position_of_refused free (fun items => index.resolve items.length) refused _

theorem item_of_refused (refused : index.resolve (store.items a).length = .error reason) :
    store.item a index = .error (.refused reason) :=
  position_of_refused free (fun items => index.resolve items.length) refused _

theorem setItem_of_refused (refused : index.resolve (store.items a).length = .error reason)
    (value : Value) : store.setItem a index value = .error (.refused reason) := by
  rw [setItem, item_of_refused free refused]
  rfl

theorem pop_of_refused {index : Option Index}
    (refused : Index.resolveRemoval index (store.items a).length = .error reason) :
    store.pop a index = .error (.refused reason) :=
  position_of_refused free (fun items => Index.resolveRemoval index items.length) refused _

end Refused

end Store

namespace Context

open Store

variable {context : Context} {a : Addr}

/-- The index leads to `element` at `position`, for reading and for both ways of changing it. -/
structure LeadsTo (context : Context) (a : Addr) (index : Index) (position : Nat)
    (element : Value) : Prop where
  here : (context.store.items a)[position]? = some element
  read : context.store.getItem a index = context.store.copy element
  replaced : ∀ value, context.store.setItem a index value =
    .ok (element, context.store.setItems a ((context.store.items a).set position value))
  changed : ∀ {ρ : Type} (work : InPlace ρ), withItem a index work context =
    Prod.map Except.ok id (lending a element
      (fun store changed => store.setPosition a position changed) work context)

/-- The index leads to nothing, for this reason, and its work in place is not done. -/
structure LeadsNowhere (context : Context) (a : Addr) (index : Index) (reason : Refusal) :
    Prop where
  read : context.store.getItem a index = .error (.refused reason)
  replaced : ∀ value, context.store.setItem a index value = .error (.refused reason)
  changed : ∀ {ρ : Type} (work : InPlace ρ),
    withItem a index work context = (.error (.refused reason), context)

/-- What indices lead to in the list at `a`. -/
structure Positions (context : Context) (a : Addr) : Prop where
  named : ∀ index position, index.Names (context.store.items a).length position →
    ∃ element, LeadsTo context a index position element
  unnamed : ∀ index, (∀ position, ¬ index.Names (context.store.items a).length position) →
    LeadsNowhere context a index
      (.indexOutOfRange index.reported (context.store.items a).length)
  removed : ∀ index position, Index.Removes (context.store.items a).length index position →
    ∃ element, (context.store.items a)[position]? = some element ∧
      context.store.pop a index =
        .ok (element, context.store.setItems a ((context.store.items a).eraseIdx position))
  unremoved : ∀ index,
    (∀ position, ¬ Index.Removes (context.store.items a).length index position) →
      context.store.pop a index = .error (.refused
        (.indexOutOfRange (Index.reportedRemoval index) (context.store.items a).length))
  first : ∀ x : Double, x.isFinite = true → -1 < x.exact → x.exact < 0 →
    0 < (context.store.items a).length →
      (Index.number x).Names (context.store.items a).length 0

theorem leadsTo_of_resolve {index : Index} {position : Nat} (free : a ∉ context.store.lent)
    (resolved : index.resolve (context.store.items a).length = .ok position) :
    ∃ element, LeadsTo context a index position element := by
  have inside := Index.resolve_lt resolved
  have there : (context.store.items a).getD position Value.none =
      (context.store.items a)[position] := by
    simp [List.getD_eq_getElem?_getD, inside]
  refine ⟨(context.store.items a)[position], ?_⟩
  rw [← there]
  refine {
    here := by rw [there, List.getElem?_eq_getElem inside]
    read := getItem_of_free free resolved
    replaced := fun value => setItem_of_free free resolved
    changed := fun work => ?_ }
  unfold withItem
  rw [item_of_free free resolved]
  rfl

/-- Every index and every removal leads where it should, or is refused. -/
theorem positions (context : Context) (a : Addr) (free : a ∉ context.store.lent)
    (short : (context.store.items a).length < 2 ^ 63) : Positions context a where
  named index position names :=
    leadsTo_of_resolve free ((Index.resolve_eq_ok_iff short index position).mpr names)
  unnamed index unnamed := by
    have refused := Index.resolve_of_unnamed short unnamed
    refine ⟨getItem_of_refused free refused, setItem_of_refused free refused, fun work => ?_⟩
    unfold withItem
    rw [item_of_refused free refused]
  removed index position removes := by
    have resolved := (Index.resolveRemoval_eq_ok_iff short index position).mpr removes
    have inside := Index.resolveRemoval_lt resolved
    refine ⟨(context.store.items a)[position], List.getElem?_eq_getElem inside, ?_⟩
    rw [pop_of_free free resolved, List.getD_eq_getElem?_getD, List.getElem?_eq_getElem inside,
      Option.getD_some]
  unremoved index unnamed := pop_of_refused free (Index.resolveRemoval_of_unnamed short unnamed)
  first _ finite above below some := Index.names_first finite above below some

/-- A list of three words. -/
def threeWords : Context where
  store := (({} : Store).newList [.scalar (.str "a"), .scalar (.str "b"), .scalar (.str "c")]).2

/-- Minus a half, minus one and a half, a number beyond every machine word, and a NaN. -/
theorem positions_threeWords :
    0 ∉ threeWords.store.lent ∧ (threeWords.store.items 0).length < 2 ^ 63 ∧
      Positions threeWords 0 ∧
      LeadsTo threeWords 0 (.number ⟨0xbfe0000000000000⟩) 0 (.scalar (.str "a")) ∧
      threeWords.store.pop 0 (some (.number ⟨0xbff8000000000000⟩)) =
        .ok (.scalar (.str "c"),
          threeWords.store.setItems 0 [.scalar (.str "a"), .scalar (.str "b")]) ∧
      threeWords.store.pop 0 (some (.number ⟨0x7e37e43c8800759c⟩)) =
        .error (.refused (.indexOutOfRange ⟨0x7e37e43c8800759c⟩ 3)) ∧
      LeadsNowhere threeWords 0 (.number ⟨0x7ff8000000000000⟩)
        (.indexOutOfRange ⟨0x7ff8000000000000⟩ 3) := by
  have free : 0 ∉ threeWords.store.lent := by decide
  have short : (threeWords.store.items 0).length < 2 ^ 63 := by decide
  have resolved := positions threeWords 0 free short
  have half : (Index.number ⟨0xbfe0000000000000⟩).Names 3 0 :=
    Index.names_number_iff.mpr (by decide +kernel)
  have back : Index.Removes 3 (some (.number ⟨0xbff8000000000000⟩)) 2 :=
    (Index.removes_iff_of_back (by decide +kernel) (by decide +kernel)).mpr (by decide +kernel)
  have notNumber : ∀ position, ¬ (Index.number ⟨0x7ff8000000000000⟩).Names 3 position := by
    intro position names
    exact absurd (Index.names_number_iff.mp names).1 (by decide +kernel)
  have beyond : ∀ position, ¬ Index.Removes 3 (some (.number ⟨0x7e37e43c8800759c⟩)) position := by
    intro position removes
    have above : 3 ≤ Double.truncated ⟨0x7e37e43c8800759c⟩ := by decide +kernel
    rw [Index.removes_iff_of_front (by rintro _ ⟨⟩ _; omega), Index.names_number_iff] at removes
    omega
  obtain ⟨first, leads⟩ := resolved.named _ 0 half
  have there : _ = some first := leads.here
  obtain ⟨_, taken, popped⟩ := resolved.removed _ 2 back
  cases there
  cases taken
  exact ⟨free, short, resolved, leads, popped, resolved.unremoved _ beyond,
    resolved.unnamed _ notNumber⟩

end Context

end ScopedValues
