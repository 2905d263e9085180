import ScopedValues.Proofs.Cursors.Keys
import ScopedValues.Proofs.Storage.Sequences

/-!
Contract: passes of a cursor over the elements of a list that changes meanwhile.

Owns the row of elements, each with the number under which it came and the value it has now,
what happens to the row, and the runs of a cursor with everything that happens between its
steps.

Main statement: the values of the row are those that the list has, its numbers are what the run
tells of, and the position of the cursor is the number of elements it has passed.

A value that is pushed comes under a new number, and a slot whose value is replaced keeps its
number. So a number stands for one occurrence of an element, also among equal values.
-/

set_option autoImplicit false

namespace ScopedValues

open Store Incidents

/-! ## What happens to the row of elements -/

/-- An element of a list, under the number with which it came. -/
structure Element where
  number : Nat
  value : Value

/-- The elements of a list, numbered in their order. -/
def Element.ofItems (items : List Value) : List Element :=
  items.mapIdx Element.mk

/-- How the elements of a list move. -/
inductive Shift where
  | still
  | appended (value : Value)
  | removed (position : Nat)
  | replaced (position : Nat) (value : Value)

namespace Shift

/-- What becomes of a list: all slots but the one that is named stay as they were. -/
def Makes : Shift → List Value → List Value → Prop
  | .still, before, after => after = before
  | .appended value, before, after => after = before ++ [value]
  | .removed position, before, after =>
      position < before.length ∧ after = before.eraseIdx position
  | .replaced position value, before, after => after = before.set position value

/-- What becomes of a row, where a new element has the number `fresh`. -/
def elements (fresh : Nat) (row : List Element) : Shift → List Element
  | .still => row
  | .appended value => row ++ [⟨fresh, value⟩]
  | .removed position => row.eraseIdx position
  | .replaced position value => row.modify position ({ · with value })

/-- What is told of the numbers in a row. -/
def incidents (fresh : Nat) (row : List Element) : Shift → Incidents Nat
  | .still => []
  | .appended _ => [.added fresh]
  | .removed position =>
      match row[position]? with
      | some element => [.removed position element.number]
      | none => []
  | .replaced _ _ => []

end Shift

/-- The number of the element that comes next, where `count` elements were there at the start. -/
def freshNumber (count : Nat) (incidents : Incidents Nat) : Nat :=
  count + (additions incidents).length

/-- The list whose elements a write moves, and how it moves them. -/
def Write.shift? (store : Store) : Write → Option (Addr × Shift)
  | .push a value => some (a, .appended value)
  | .set a index value =>
      match index.resolve (store.items a).length with
      | .ok position => some (a, .replaced position value)
      | .error _ => none
  | .pop a index =>
      match Index.resolveRemoval index (store.items a).length with
      | .ok position => some (a, .removed position)
      | .error _ => none
  | _ => none

/-- How a write moves the elements of a list, which it does not if it fails. -/
def Write.shiftOf (context : Context) (list : Addr) (write : Write) : Shift :=
  match (write.run context).1, write.shift? context.store with
  | .ok _, some (target, shift) => if target = list then shift else .still
  | _, _ => .still

/-- How the elements of a list move when a change in place ends. -/
def Frame.shiftOf (list : Addr) (value : Value) : Frame → Shift
  | .item a position _ => if a = list then .replaced position value else .still
  | .entry _ _ _ => .still

/-- One move of a run that a list is followed through, and how its elements move. -/
inductive ElementMove (list : Addr) :
    Context → List Frame → Shift → Context → List Frame → Prop where
  /-- Anything is added to storage. -/
  | grow {context later : Context} (frames : List Frame)
      (adds : context.store.Extends later.store) (sound : later.store.Sound) :
      ElementMove list context frames .still later frames
  | write {context : Context} (frames : List Frame) (write : Write)
      (fits : write.Fits context.store) :
      ElementMove list context frames (write.shiftOf context list) (write.run context).2 frames
  | enterItem {context : Context} (frames : List Frame) {a : Addr} {index : Index}
      {position : Nat} {value : Value} (isList : context.store.IsList a)
      (found : context.store.item a index = .ok (position, value)) (slot : String) :
      ElementMove list context frames .still { context with store := context.store.lend a }
        (.item a position slot :: frames)
  | enterEntry {context : Context} (frames : List Frame) {a owner : Addr} {key : String}
      {value : Value} {store : Store} (isScope : context.store.IsScope a)
      (found : context.store.entry a key = .ok (owner, value, store)) (slot : String) :
      ElementMove list context frames .still { context with store := store.lend owner }
        (.entry owner key slot :: frames)
  | leave {context : Context} {frame : Frame} {frames : List Frame} {value : Value}
      (held : value.Held context.store) :
      ElementMove list context (frame :: frames) (frame.shiftOf list value)
        { context with store := frame.putBack context.store.regain value } frames

/-! ## Rows of elements -/

namespace Element

theorem map_value_ofItems (items : List Value) : (ofItems items).map value = items := by
  refine List.ext_getElem? fun place => ?_
  rw [ofItems, List.getElem?_map, List.getElem?_mapIdx]
  cases items[place]? <;> rfl

theorem map_number_ofItems (items : List Value) :
    (ofItems items).map number = List.range items.length := by
  refine List.ext_getElem (by simp [ofItems]) fun place _ _ => ?_
  simp [ofItems]

/-- A slot whose value is replaced keeps its number. -/
theorem map_number_replaced (elements : List Element) (position : Nat) (value : Value) :
    (elements.modify position ({ · with value })).map number = elements.map number := by
  refine List.ext_getElem (by simp) fun place _ _ => ?_
  rw [List.getElem_map, List.getElem_map, List.getElem_modify]
  split <;> rfl

theorem map_value_replaced (elements : List Element) (position : Nat) (changed : Value) :
    (elements.modify position ({ · with value := changed })).map value =
      (elements.map value).set position changed := by
  refine List.ext_getElem (by simp) fun place _ _ => ?_
  rw [List.getElem_map, List.getElem_modify, List.getElem_set, List.getElem_map]
  split <;> rfl

end Element

/-- What a row of elements is to the numbers that are told of it. There were `count` elements
at the start. -/
structure Numbered (count : Nat) (incidents : Incidents Nat) (elements : List Element) :
    Prop where
  /-- What is told to have been removed or passed stood there. -/
  fair : Fair (List.range count) incidents
  numbers : elements.map Element.number = row (List.range count) incidents
  /-- No number is given twice. -/
  fresh : List.range count ++ additions incidents = List.range (freshNumber count incidents)

namespace Shift

variable {shift : Shift} {elements : List Element} {before after : List Value}

/-- The values of a row become what the list becomes. -/
theorem Makes.map_value (made : shift.Makes before after)
    (values : elements.map Element.value = before) (fresh : Nat) :
    (shift.elements fresh elements).map Element.value = after := by
  subst values
  cases shift with
  | still => exact Eq.symm made
  | appended value =>
      obtain rfl : after = _ := made
      exact List.map_append
  | removed position =>
      obtain ⟨_, rfl⟩ := made
      exact (List.eraseIdx_map _ _ _).symm
  | replaced position value =>
      obtain rfl : after = _ := made
      exact Element.map_value_replaced elements position value

end Shift

namespace Numbered

variable {count : Nat} {incidents : Incidents Nat} {elements : List Element}

theorem start (items : List Value) : Numbered items.length [] (Element.ofItems items) :=
  ⟨List.nodup_range, Element.map_number_ofItems items, by simp [additions, freshNumber]⟩

theorem lt_of_mem_row (numbered : Numbered count incidents elements) {number : Nat}
    (member : number ∈ row (List.range count) incidents) :
    number < freshNumber count incidents := by
  have listed := mem_row member
  rw [numbered.fresh] at listed
  exact List.mem_range.mp listed

/-- No number is passed twice. -/
theorem nodup_passes (numbered : Numbered count incidents elements) :
    (passes incidents).Nodup := by
  refine numbered.fair.nodup_passes ?_
  rw [numbered.fresh]
  exact List.nodup_range

theorem getElem?_row (numbered : Numbered count incidents elements) {position : Nat}
    {element : Element} (here : elements[position]? = some element) :
    (row (List.range count) incidents)[position]? = some element.number := by
  rw [← numbered.numbers, List.getElem?_map, here]
  rfl

/-- What is told of a move is told of the row as it is then, and passes nothing. -/
theorem shift (numbered : Numbered count incidents elements) (shift : Shift) :
    Numbered count (shift.incidents (freshNumber count incidents) elements ++ incidents)
        (shift.elements (freshNumber count incidents) elements) ∧
      passes (shift.incidents (freshNumber count incidents) elements ++ incidents) =
        passes incidents := by
  cases shift with
  | still => exact ⟨numbered, rfl⟩
  | appended value =>
      refine ⟨⟨⟨?_, numbered.fair⟩, ?_, ?_⟩, rfl⟩
      · exact fun there => Nat.lt_irrefl _ (numbered.lt_of_mem_row there)
      · rw [Shift.elements, List.map_append, numbered.numbers]
        rfl
      · change List.range count ++ (additions incidents ++ [_]) =
          List.range (count + (additions incidents ++ [_]).length)
        rw [← List.append_assoc, numbered.fresh, ← List.range_succ, List.length_append]
        rfl
  | removed position =>
      rw [Shift.incidents, Shift.elements]
      cases here : elements[position]? with
      | none =>
          rw [List.eraseIdx_of_length_le (List.getElem?_eq_none_iff.mp here)]
          exact ⟨numbered, rfl⟩
      | some element =>
          refine ⟨⟨⟨numbered.getElem?_row here, numbered.fair⟩, ?_, numbered.fresh⟩, rfl⟩
          rw [← List.eraseIdx_map, numbered.numbers]
          rfl
  | replaced position value =>
      refine ⟨⟨numbered.fair, ?_, numbered.fresh⟩, rfl⟩
      exact (Element.map_number_replaced elements position value).trans numbered.numbers

/-- The number that is passed is the one that stands where the row has been passed to. -/
theorem next (numbered : Numbered count incidents elements) {element : Element}
    (here : elements[(passes incidents).length]? = some element) :
    Numbered count (.passed element.number :: incidents) elements :=
  ⟨⟨numbered.getElem?_row here, numbered.fair⟩, numbered.numbers, numbered.fresh⟩

end Numbered

/-! ## What a move does -/

namespace Write

variable {context : Context} {list : Addr} {write : Write}

theorem shiftOf_of_none (aside : write.shift? context.store = none) :
    write.shiftOf context list = .still := by
  unfold shiftOf
  rw [aside]
  cases (write.run context).1 <;> rfl

/-- A write that fails in storage does nothing. -/
theorem run_change_cases (work : Store → Except Fault Store) :
    (∃ fault, Context.change work context = (.error fault, context)) ∨
      ∃ after, work context.store = .ok after ∧
        Context.change work context = (.ok (), { context with store := after }) := by
  cases done : work context.store with
  | error fault =>
      have asked : Context.ask work context = (.error fault, context) := by
        rw [Context.ask_eq, done]
      exact .inl ⟨fault, Discipline.bind_of_error asked⟩
  | ok after => exact .inr ⟨after, rfl, Context.change_eq_ok done⟩

theorem run_onStore_cases {α : Type} (work : Store → Except Fault (α × Store)) :
    (∃ fault, (do let _ ← Context.onStore work : ContextM Unit) context =
      (.error fault, context)) ∨
      ∃ x after, work context.store = .ok (x, after) ∧
        (do let _ ← Context.onStore work : ContextM Unit) context =
          (.ok (), { context with store := after }) := by
  cases done : work context.store with
  | error fault =>
      have asked : Context.ask work context = (.error fault, context) := by
        rw [Context.ask_eq, done]
      exact .inl ⟨fault, Discipline.bind_of_error (Discipline.bind_of_error asked)⟩
  | ok answer =>
      exact .inr ⟨answer.1, answer.2, rfl, Discipline.bind_of_ok (Context.onStore_eq_ok done)⟩

theorem shiftOf_of_error {fault : Fault} (failed : (write.run context).1 = .error fault) :
    write.shiftOf context list = .still := by
  unfold shiftOf
  rw [failed]

theorem shiftOf_of_ok {target : Addr} {shift : Shift} (done : (write.run context).1 = .ok ())
    (moves : write.shift? context.store = some (target, shift)) :
    write.shiftOf context list = if target = list then shift else .still := by
  unfold shiftOf
  rw [done, moves]

/-- A write of a scope leaves all lists alone. -/
theorem items_run_of_scope (sound : context.store.Sound) (isList : context.store.IsList list)
    (fits : write.Fits context.store)
    (elsewhere : write.Inside context.store fun a => context.store.IsScope a) :
    (write.run context).2.store.items list = context.store.items list := by
  have keeps := keeps_run sound fits elsewhere
  have spares : Spares (fun a => context.store.IsScope a) context.store
    (write.run context).2.store := keeps.grows
  have noScope : ¬ context.store.IsScope list := fun isScope => by
    simpa [isScope.payload_eq] using isList.payload_eq
  exact items_of_payload (spares.payloads list isList.lt_size noScope)

/-- A write that fails, or that gives a list other elements, moves what it is told to move. -/
theorem makes_of_setItems {target : Addr} (isList : context.store.IsList target)
    (outcome : (∃ fault, write.run context = (.error fault, context)) ∨
      ∃ changed shift,
        write.run context =
          (.ok (), { context with store := context.store.setItems target changed }) ∧
        write.shift? context.store = some (target, shift) ∧
        shift.Makes (context.store.items target) changed) :
    (write.shiftOf context list).Makes (context.store.items list)
      ((write.run context).2.store.items list) := by
  rcases outcome with ⟨fault, failed⟩ | ⟨changed, shift, done, moves, made⟩
  · rw [shiftOf_of_error (congrArg Prod.fst failed), failed]
    rfl
  · have after : (write.run context).2.store.items list =
        if list = target then changed else context.store.items list := by
      rw [done]
      exact items_setItems isList.lt_size changed list
    rw [shiftOf_of_ok (congrArg Prod.fst done) moves, after]
    by_cases same : target = list
    · subst same
      rw [if_pos rfl, if_pos rfl]
      exact made
    · rw [if_neg same, if_neg (Ne.symm same)]
      rfl

/-- A write moves the elements of a list as it is told to. -/
theorem makes_shift (sound : context.store.Sound) (isList : context.store.IsList list)
    (fits : write.Fits context.store) :
    (write.shiftOf context list).Makes (context.store.items list)
      ((write.run context).2.store.items list) := by
  have aside : write.shift? context.store = none →
      (write.Inside context.store fun a => context.store.IsScope a) →
        (write.shiftOf context list).Makes (context.store.items list)
          ((write.run context).2.store.items list) := by
    intro still elsewhere
    rw [shiftOf_of_none still, items_run_of_scope sound isList fits elsewhere]
    rfl
  cases write with
  | push a value =>
      refine makes_of_setItems fits.1 ?_
      refine (run_change_cases (·.push a value)).imp_right ?_
      rintro ⟨after, pushed, done⟩
      obtain ⟨_, rfl⟩ := push_eq_ok pushed
      exact ⟨_, .appended value, done, rfl, rfl⟩
  | set a index value =>
      refine makes_of_setItems fits.1 ?_
      refine (run_onStore_cases (·.setItem a index value)).imp_right ?_
      rintro ⟨old, after, replaced, done⟩
      obtain ⟨position, resolved, _, rfl⟩ := setItem_eq_ok replaced
      refine ⟨_, .replaced position value, done, ?_, rfl⟩
      rw [shift?, resolved]
  | pop a index =>
      refine makes_of_setItems fits ?_
      refine (run_onStore_cases (·.pop a index)).imp_right ?_
      rintro ⟨removed, after, popped, done⟩
      obtain ⟨position, resolved, _, rfl⟩ := pop_eq_ok popped
      refine ⟨_, .removed position, done, ?_, Index.resolveRemoval_lt resolved, rfl⟩
      rw [shift?, resolved]
  | insert a key value => exact aside rfl fits.1
  | erase a key => exact aside rfl fits
  | assign a key value =>
      exact aside rfl fun owner found => owner?_isScope sound fits.1 found

end Write

namespace ElementMove

variable {list : Addr} {before after : Context} {frames laterFrames : List Frame}
  {shift : Shift}

/-- What holds while a list is followed. -/
structure Stands (list : Addr) (context : Context) (frames : List Frame) : Prop where
  sound : context.store.Sound
  isList : context.store.IsList list
  fits : ∀ frame ∈ frames, frame.Fits context.store

theorem Stands.develop (stands : Stands list before frames) (sound : after.store.Sound)
    (retains : before.store.Retains after.store) : Stands list after frames :=
  ⟨sound, retains.lists _ stands.isList,
    fun frame member => (stands.fits frame member).retain retains⟩

theorem Stands.enter (stands : Stands list before frames) {frame : Frame}
    (fits : frame.Fits before.store) :
    Stands list { before with store := before.store.lend frame.storage } (frame :: frames) := by
  have lent : before.store.Retains (before.store.lend frame.storage) := .of_payloads rfl
  let later : Context := { before with store := before.store.lend frame.storage }
  have outer : Stands list later frames := stands.develop (stands.sound.of_payloads rfl) lent
  exact ⟨outer.sound, outer.isList, List.forall_mem_cons.mpr ⟨fits.retain lent, outer.fits⟩⟩

/-- The end of a change in place replaces the one slot. -/
theorem makes_putBack {store : Store} (isList : store.IsList list) {frame : Frame}
    (fits : frame.Fits store) (value : Value) :
    (frame.shiftOf list value).Makes (store.items list)
      ((frame.putBack store value).items list) := by
  cases frame with
  | item a position slot =>
      have after : ((Frame.item a position slot).putBack store value).items list =
          if list = a then (store.items a).set position value else store.items list :=
        items_setItems (IsList.lt_size fits) _ list
      rw [after, Frame.shiftOf]
      by_cases same : a = list
      · subst same
        rw [if_pos rfl, if_pos rfl]
        rfl
      · rw [if_neg same, if_neg (Ne.symm same)]
        rfl
  | entry a key slot =>
      have different : list ≠ a := by
        rintro rfl
        simpa [isList.payload_eq] using IsScope.payload_eq fits
      exact items_setBindings_of_ne _ different

theorem makes (move : ElementMove list before frames shift after laterFrames)
    (stands : Stands list before frames) :
    Stands list after laterFrames ∧
      shift.Makes (before.store.items list) (after.store.items list) := by
  cases move with
  | grow frames adds sound =>
      exact ⟨stands.develop sound adds.grows.toRetains, adds.items_eq stands.isList.lt_size⟩
  | write frames write fits =>
      have keeps := Write.keeps_run stands.sound fits (write.inside_everywhere _)
      have grows : Spares _ _ _ := keeps.grows
      exact ⟨stands.develop keeps.sound grows.toRetains,
        Write.makes_shift stands.sound stands.isList fits⟩
  | @enterItem frames a index position value isList found slot =>
      have fits : (Frame.item a position slot).Fits before.store := isList
      exact ⟨stands.enter fits, rfl⟩
  | @enterEntry frames a owner key value store isScope found slot =>
      obtain ⟨develops, ownerIsScope, _⟩ := entry_keeps stands.sound isScope found
      have declared : Stands list { before with store } frames :=
        stands.develop develops.sound develops.grows.toRetains
      have fits : (Frame.entry owner key slot).Fits store := ownerIsScope
      have spares : Spares (fun b => b = owner) before.store store :=
        spares_entry stands.sound isScope found rfl
      have different : list ≠ owner := by
        rintro rfl
        simpa [declared.isList.payload_eq] using ownerIsScope.payload_eq
      exact ⟨declared.enter fits,
        items_of_payload (spares.payloads list stands.isList.lt_size different)⟩
  | @leave frame frames value held =>
      have back : before.store.Retains before.store.regain := .of_payloads rfl
      have sound : before.store.regain.Sound := stands.sound.of_payloads rfl
      have fits : frame.Fits before.store.regain :=
        (stands.fits frame List.mem_cons_self).retain back
      have develops := Frame.develops_putBack sound fits (held.retain back)
      have outer : Stands list before laterFrames :=
        ⟨stands.sound, stands.isList, fun other member =>
          stands.fits other (List.mem_cons_of_mem frame member)⟩
      exact ⟨outer.develop develops.sound (back.trans develops.grows.toRetains),
        makes_putBack (back.lists _ stands.isList) fits value⟩

end ElementMove

/-! ## Steps of a cursor -/

namespace Cursor

variable {store after : Store} {a : Addr} {position : Nat} {cursor : Cursor}

theorem current?_elements_eq_some {value : Value}
    (shown : Cursor.current? ⟨.elements a, position⟩ store = .ok (some value, after)) :
    ∃ element, (store.items a)[position]? = some element ∧
      store.copy element = .ok (value, after) := by
  obtain ⟨items, read, shown⟩ := bind_eq_ok shown
  obtain rfl := readList_eq_items read
  cases here : (store.items a)[position]? with
  | none =>
      simp only [here] at shown
      cases shown
  | some element =>
      simp only [here] at shown
      obtain ⟨copied, done, shown⟩ := bind_eq_ok shown
      cases shown
      exact ⟨element, rfl, done⟩

theorem current?_elements_eq_none
    (shown : Cursor.current? ⟨.elements a, position⟩ store = .ok (none, after)) :
    (store.items a).length ≤ position := by
  obtain ⟨items, read, shown⟩ := bind_eq_ok shown
  obtain rfl := readList_eq_items read
  cases here : (store.items a)[position]? with
  | none => exact List.getElem?_eq_none_iff.mp here
  | some element =>
      simp only [here] at shown
      obtain ⟨copied, done, shown⟩ := bind_eq_ok shown
      cases shown

theorem next_elements_eq_some {value : Value}
    (answered : Cursor.next ⟨.elements a, position⟩ store = .ok ((some value, cursor), after)) :
    ∃ element, (store.items a)[position]? = some element ∧
      store.copy element = .ok (value, after) ∧ cursor = ⟨.elements a, position + 1⟩ := by
  obtain ⟨⟨found, later⟩, shown, answered⟩ := bind_eq_ok answered
  cases found with
  | none => cases answered
  | some value =>
      cases answered
      obtain ⟨element, here, copied⟩ := current?_elements_eq_some shown
      exact ⟨element, here, copied, rfl⟩

theorem next_elements_eq_none
    (answered : Cursor.next ⟨.elements a, position⟩ store = .ok ((none, cursor), after)) :
    (store.items a).length ≤ position := by
  obtain ⟨⟨found, later⟩, shown, answered⟩ := bind_eq_ok answered
  cases found with
  | none =>
      cases answered
      exact current?_elements_eq_none shown
  | some value => cases answered

end Cursor

/-! ## Passes -/

/-- A pass over the elements of a list, and the row of these. Between the steps of the cursor,
anything is written to the list, or changed in place. -/
inductive ElementPass (list : Addr) (context : Context) (frames : List Frame) :
    Incidents Nat → List Element → Tour → Prop where
  | start : ElementPass list context frames [] (Element.ofItems (context.store.items list))
      ⟨⟨.elements list, 0⟩, context, frames⟩
  | move {incidents : Incidents Nat} {elements : List Element} {tour : Tour} {shift : Shift}
      {later : Context} {laterFrames : List Frame}
      (sofar : ElementPass list context frames incidents elements tour)
      (move : ElementMove list tour.context tour.frames shift later laterFrames) :
      ElementPass list context frames
        (shift.incidents (freshNumber (context.store.items list).length incidents) elements ++
          incidents)
        (shift.elements (freshNumber (context.store.items list).length incidents) elements)
        ⟨tour.cursor, later, laterFrames⟩
  /-- The number that is passed is the one at the position of the cursor, where there is one
  whenever the cursor answers (`Stands.element_of_next`). -/
  | next {incidents : Incidents Nat} {elements : List Element} {tour : Tour}
      {element : Element} {value : Value} {cursor : Cursor} {store : Store}
      (sofar : ElementPass list context frames incidents elements tour)
      (answered : tour.cursor.next tour.store = .ok ((some value, cursor), store))
      (here : elements[tour.cursor.position]? = some element) :
      ElementPass list context frames (.passed element.number :: incidents) elements
        ⟨cursor, { tour.context with store }, tour.frames⟩

namespace ElementPass

variable {list : Addr} {context : Context} {frames : List Frame} {count : Nat}
  {incidents : Incidents Nat} {elements : List Element} {tour : Tour}

/-- How a pass over elements stands. -/
structure Stands (list : Addr) (count : Nat) (incidents : Incidents Nat)
    (elements : List Element) (tour : Tour) : Prop extends
    ElementMove.Stands list tour.context tour.frames, Numbered count incidents elements where
  values : elements.map Element.value = tour.store.items list
  cursor : tour.cursor = ⟨.elements list, (passes incidents).length⟩

/-- How a pass stands after the list has moved. -/
theorem Stands.move (stands : Stands list count incidents elements tour) {shift : Shift}
    {later : Context} {laterFrames : List Frame}
    (move : ElementMove list tour.context tour.frames shift later laterFrames) :
    Stands list count
      (shift.incidents (freshNumber count incidents) elements ++ incidents)
      (shift.elements (freshNumber count incidents) elements)
      ⟨tour.cursor, later, laterFrames⟩ := by
  obtain ⟨followed, made⟩ := move.makes stands.toStands
  obtain ⟨numbered, kept⟩ := stands.toNumbered.shift shift
  refine ⟨followed, numbered, made.map_value stands.values _, ?_⟩
  rw [kept]
  exact stands.cursor

/-- What the cursor answers is a copy of the element at its position. -/
theorem Stands.element_of_next (stands : Stands list count incidents elements tour)
    {value : Value} {cursor : Cursor} {store : Store}
    (answered : tour.cursor.next tour.store = .ok ((some value, cursor), store)) :
    cursor = ⟨.elements list, (passes incidents).length + 1⟩ ∧
      ∃ element, elements[(passes incidents).length]? = some element ∧
        tour.store.copy element.value = .ok (value, store) := by
  rw [stands.cursor] at answered
  obtain ⟨item, here, copied, rfl⟩ := Cursor.next_elements_eq_some answered
  rw [← stands.values, List.getElem?_map] at here
  obtain ⟨element, there, rfl⟩ := Option.map_eq_some_iff.mp here
  exact ⟨rfl, element, there, copied⟩

/-- How a pass stands after a step of the cursor. -/
theorem Stands.next (stands : Stands list count incidents elements tour) {element : Element}
    {value : Value} {cursor : Cursor} {store : Store}
    (answered : tour.cursor.next tour.store = .ok ((some value, cursor), store))
    (here : elements[(passes incidents).length]? = some element) :
    Stands list count (.passed element.number :: incidents) elements
      ⟨cursor, { tour.context with store }, tour.frames⟩ := by
  obtain ⟨rfl, other, there, copied⟩ := stands.element_of_next answered
  obtain rfl := Option.some.inj (here.symm.trans there)
  have listed : element.value ∈ tour.store.items list := by
    rw [← stands.values]
    exact List.mem_map_of_mem (List.mem_of_getElem? here)
  have held := stands.sound.items_held list element.value listed
  have adds := (CopyMode.run_ok stands.sound.toTyped held .plain copied).1.extension
  have develops := (keeps_copy stands.sound held value store copied).1
  refine ⟨?_, stands.toNumbered.next here, ?_, ?_⟩
  · exact stands.toStands.develop develops.sound develops.grows.toRetains
  · exact stands.values.trans (adds.items_eq stands.isList.lt_size).symm
  · rw [passes, List.length_append, List.length_singleton]

theorem stands (pass : ElementPass list context frames incidents elements tour)
    (followed : ElementMove.Stands list context frames) :
    Stands list (context.store.items list).length incidents elements tour := by
  induction pass with
  | start => exact ⟨followed, .start _, Element.map_value_ofItems _, rfl⟩
  | move _ move inductionHypothesis => exact inductionHypothesis.move move
  | next _ answered here inductionHypothesis =>
      refine inductionHypothesis.next answered ?_
      rw [inductionHypothesis.cursor] at here
      exact here

end ElementPass

end ScopedValues
