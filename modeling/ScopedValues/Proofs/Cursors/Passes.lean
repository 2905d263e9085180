import ScopedValues.Proofs.Cursors.Elements
import ScopedValues.Proofs.Scopes.Resolution

/-!
Contract: passes of live cursors.

Main statement: whatever is done between the steps of a cursor, a pass repeats nothing that was
not removed and added again, and misses no more than was removed of what it had passed; where
nothing of it was removed, it lists what is there at the end, in order.
-/

set_option autoImplicit false

namespace ScopedValues

open Store Incidents

/-- The next step of the cursor ends the pass. -/
def Tour.Ends (tour : Tour) : Prop :=
  ∃ cursor store, tour.cursor.next tour.store = .ok ((none, cursor), store)

/-- What a pass over the keys of a scope has listed. -/
structure KeysPassed (scope : Addr) (incidents : Incidents String) (tour : Tour) : Prop where
  /-- Between two times that a key is listed, it was erased and declared again. -/
  again : ∀ key later between earlier,
    incidents = later ++ .passed key :: (between ++ .passed key :: earlier) → Readded key between
  missed : tour.Ends → (tour.store.scope scope).bindings.keys.countP (· ∉ passes incidents) ≤
    losses incidents
  whole : tour.Ends → losses incidents = 0 →
    passes incidents = (tour.store.scope scope).bindings.keys

/-- What a pass over the elements of a list has listed, of which there were `count` at the
start. -/
structure ElementsPassed (list : Addr) (count : Nat) (incidents : Incidents Nat)
    (elements : List Element) (tour : Tour) : Prop extends Numbered count incidents elements where
  /-- The row has the values that the list has, -/
  values : elements.map Element.value = tour.store.items list
  /-- and whatever is done next moves the list as it moves the row. -/
  moves : ∀ shift later laterFrames,
    ElementMove list tour.context tour.frames shift later laterFrames →
      shift.Makes (tour.store.items list) (later.store.items list)
  /-- The cursor stands where the row has been passed to. -/
  cursor : tour.cursor = ⟨.elements list, (passes incidents).length⟩
  /-- No element is listed twice. -/
  once : (passes incidents).Nodup
  /-- What is listed next is a copy of the element at the cursor's position. -/
  next : ∀ value cursor store, tour.cursor.next tour.store = .ok ((some value, cursor), store) →
    ∃ element, elements[tour.cursor.position]? = some element ∧
      tour.store.copy element.value = .ok (value, store)
  missed : tour.Ends →
    elements.countP (fun element => element.number ∉ passes incidents) ≤ losses incidents
  /-- Where nothing was removed before the cursor, all that is there has been listed. -/
  whole : tour.Ends →
    (∀ later index number earlier, incidents = later ++ .removed index number :: earlier →
      (passes earlier).length ≤ index) →
    passes incidents = elements.map Element.number ∧
      (passes incidents).length = (tour.store.items list).length

theorem KeyPass.Stands.keysPassed {scope : Addr} {start : List String}
    {incidents : Incidents String} {tour : Tour}
    (stands : KeyPass.Stands scope start incidents tour) : KeysPassed scope incidents tour := by
  have finished : tour.Ends → (row start incidents).length ≤ (passes incidents).length := by
    rintro ⟨cursor, store, answered⟩
    rw [stands.cursor] at answered
    rw [← stands.keys]
    exact Cursor.next_keys_eq_none answered
  refine ⟨?_, ?_, ?_⟩
  · rintro key later between earlier rfl
    exact (stands.fair.of_append later).readded
  · intro ends
    rw [stands.keys]
    exact stands.fair.missed_le (finished ends)
  · intro ends none
    rw [stands.keys]
    exact stands.fair.passes_eq_row none (finished ends)

theorem ElementPass.Stands.elementsPassed {list : Addr} {count : Nat} {incidents : Incidents Nat}
    {elements : List Element} {tour : Tour}
    (stands : ElementPass.Stands list count incidents elements tour) :
    ElementsPassed list count incidents elements tour := by
  have counted : (row (List.range count) incidents).length = (tour.store.items list).length := by
    rw [← stands.numbers, ← stands.values, List.length_map, List.length_map]
  have finished : tour.Ends →
      (row (List.range count) incidents).length ≤ (passes incidents).length := by
    rintro ⟨cursor, store, answered⟩
    rw [stands.cursor] at answered
    rw [counted]
    exact Cursor.next_elements_eq_none answered
  refine ⟨stands.toNumbered, stands.values, ?_, stands.cursor, stands.nodup_passes, ?_, ?_, ?_⟩
  · exact fun shift later laterFrames move => (move.makes stands.toStands).2
  · intro value cursor store answered
    rw [stands.cursor]
    exact (stands.element_of_next answered).2
  · intro ends
    have bound := stands.fair.missed_le (finished ends)
    rw [← stands.numbers, List.countP_map] at bound
    exact bound
  · intro ends behind
    have listed := stands.fair.passes_eq_row (stands.fair.losses_eq_zero behind) (finished ends)
    exact ⟨listed.trans stands.numbers.symm, (congrArg List.length listed).trans counted⟩

/-- Wherever a pass starts, and whatever is done in between. -/
theorem Session.Reached.passes {session : Session} {frames : List Frame}
    (reached : session.Reached frames) :
    (∀ scope incidents tour, session.context.store.IsScope scope →
      KeyPass scope session.context frames incidents tour → KeysPassed scope incidents tour) ∧
    (∀ list incidents elements tour, session.context.store.IsList list →
      ElementPass list session.context frames incidents elements tour →
        ElementsPassed list (session.context.store.items list).length incidents elements tour) := by
  have sound := reached.stands.sound.context.store
  refine ⟨fun scope incidents tour isScope pass => ?_,
    fun list incidents elements tour isList pass => ?_⟩
  · exact (pass.stands ⟨sound, isScope, reached.stands.fits⟩).keysPassed
  · exact (pass.stands ⟨sound, isList, reached.stands.fits⟩).elementsPassed

namespace Session

/-- Two scopes, of which the inner one is empty, and a list of two elements. -/
def scopesAndList : Session :=
  twoScopes.run [.store "row" (.list [.scalar (.str "first"), .scalar (.str "second")])]

theorem reachable_scopesAndList : scopesAndList.Reachable :=
  reachable_twoScopes.run _

/-- A key is listed again after it has been declared again, and another one is missed. -/
theorem keyPass_redeclaring : ∃ incidents tour,
    KeyPass 1 scopesAndList.context [] incidents tour ∧ tour.Ends ∧
      passes incidents = ["a", "a"] ∧ losses incidents = 1 ∧
        (tour.store.scope 1).bindings.keys = ["b", "a"] := by
  have pass := @KeyPass.start 1 scopesAndList.context []
    |>.move (.write (.insert 1 "a" Value.none) ⟨⟨_, rfl⟩, Value.held_none _⟩)
    |>.move (.write (.insert 1 "b" Value.none) ⟨⟨_, rfl⟩, Value.held_none _⟩)
    |>.next rfl
    |>.move (.write (.erase 1 "a") ⟨_, rfl⟩)
    |>.move (.write (.assign 1 "a" Value.none) ⟨⟨_, rfl⟩, Value.held_none _⟩)
    |>.next rfl
  exact ⟨_, _, pass, ⟨_, _, rfl⟩, rfl, rfl, rfl⟩

/-- The element that takes the place of one that was removed is missed, and one whose value is
replaced is the same element. -/
theorem elementPass_popping : ∃ incidents elements tour,
    ElementPass 2 scopesAndList.context [] incidents elements tour ∧ tour.Ends ∧
      passes incidents = [0, 2] ∧ losses incidents = 1 ∧
        elements = [⟨1, .str "second"⟩, ⟨2, .str "third"⟩] := by
  have pass := @ElementPass.start 2 scopesAndList.context []
    |>.next rfl rfl
    |>.move (.write [] (.push 2 Value.none) ⟨⟨_, rfl⟩, Value.held_none _⟩)
    |>.move (.write [] (.pop 2 (some (.whole 0))) ⟨_, rfl⟩)
    |>.move (.write [] (.set 2 (.whole 1) (.str "third")) ⟨⟨_, rfl⟩, Value.held_scalar _ _⟩)
    |>.next rfl rfl
  exact ⟨_, _, _, pass, ⟨_, _, rfl⟩, rfl, rfl, rfl⟩

theorem passes_scopesAndList :
    scopesAndList.Reachable ∧ scopesAndList.context.store.IsScope 1 ∧
      scopesAndList.context.store.IsList 2 ∧
      (∃ incidents tour, KeyPass 1 scopesAndList.context [] incidents tour ∧ tour.Ends ∧
        passes incidents = ["a", "a"] ∧ KeysPassed 1 incidents tour) ∧
      ∃ incidents elements tour,
        ElementPass 2 scopesAndList.context [] incidents elements tour ∧ tour.Ends ∧
          passes incidents = [0, 2] ∧
          elements = [⟨1, .str "second"⟩, ⟨2, .str "third"⟩] ∧
          ElementsPassed 2 (scopesAndList.context.store.items 2).length incidents elements
            tour := by
  obtain ⟨keys, keyTour, keyPass, keysEnd, listedKeys, _⟩ := keyPass_redeclaring
  obtain ⟨incidents, elements, tour, pass, ends, listed, _, kept⟩ := elementPass_popping
  have isScope : scopesAndList.context.store.IsScope 1 := ⟨_, rfl⟩
  have isList : scopesAndList.context.store.IsList 2 := ⟨_, rfl⟩
  obtain ⟨overKeys, overElements⟩ := reachable_scopesAndList.passes
  exact ⟨reachable_scopesAndList, isScope, isList,
    ⟨keys, keyTour, keyPass, keysEnd, listedKeys, overKeys 1 keys keyTour isScope keyPass⟩,
    incidents, elements, tour, pass, ends, listed, kept,
    overElements 2 incidents elements tour isList pass⟩

end Session

end ScopedValues
