import ScopedValues.Proofs.Copies.Termination
import ScopedValues.Proofs.Cursors.Passes

/-!
Contract: cursors over storage that is not written meanwhile.

Owns the walk that a cursor makes as a matter of positions alone, the calls of several cursors in
any order, and passes that are left and taken up again.

Main statement: however the calls of several cursors are mixed, each cursor makes the one walk,
for which nothing matters but its own position and its own calls; and a pass that is left halfway
and taken up again shows everything that was ahead of it once, in order.

Copies of elements are added to storage by the steps. They are no writes: everything that was
there stays as it was, and so do the rows that are walked over.
-/

set_option autoImplicit false

namespace ScopedValues

open Store

/-! ## The walk -/

/-- What is asked of a cursor. -/
inductive CursorCall where
  | next
  | reset
deriving DecidableEq, Repr

namespace CursorCall

/-- The position of an entry, or nothing behind the last one. -/
def inside (length position : Nat) : Option Nat :=
  if position < length then some position else none

/-- Where a cursor over so many entries stands after a call. -/
def move (length position : Nat) : CursorCall → Nat
  | .next => if position < length then position + 1 else 0
  | .reset => 0

/-- Where a cursor stands after several calls. -/
def stands (length position : Nat) (calls : List CursorCall) : Nat :=
  calls.foldl (move length) position

/-- What a cursor answers to calls, by positions. A reset has no answer. -/
def answers (length : Nat) : Nat → List CursorCall → List (Option Nat)
  | _, [] => []
  | position, .next :: rest =>
      inside length position :: answers length (move length position .next) rest
  | _, .reset :: rest => answers length 0 rest

variable {length : Nat}

theorem answers_append (calls more : List CursorCall) :
    ∀ position, answers length position (calls ++ more) =
      answers length position calls ++ answers length (stands length position calls) more := by
  induction calls with
  | nil => exact fun _ => rfl
  | cons call rest inductionHypothesis =>
      intro position
      cases call with
      | next => exact congrArg _ (inductionHypothesis _)
      | reset => exact inductionHypothesis _

theorem inside_min (position : Nat) :
    inside length (min position length) = inside length position := by
  rcases Nat.lt_or_ge position length with before | beyond
  · rw [Nat.min_eq_left before.le]
  · rw [Nat.min_eq_right beyond, inside, inside, if_neg (Nat.lt_irrefl _),
      if_neg (Nat.not_lt.mpr beyond)]

/-- One step moves on around the circle of all positions and the end. -/
theorem min_move_next (position steps : Nat) :
    (min (move length position .next) length + steps) % (length + 1) =
      (min position length + (steps + 1)) % (length + 1) := by
  rw [move]
  split
  · next before =>
      rw [Nat.min_eq_left before.le, Nat.min_eq_left before, Nat.succ_add_eq_add_succ]
  · next beyond =>
      rw [Nat.min_eq_right (Nat.not_lt.mp beyond), Nat.zero_min, Nat.add_comm steps 1,
        ← Nat.add_assoc, Nat.add_mod_left, Nat.zero_add]

/-- The way around all positions and then the end, over and over. -/
def round (length position count : Nat) : List (Option Nat) :=
  (List.range count).map fun steps => inside length ((min position length + steps) % (length + 1))

/-- Without a reset, the answers go around. -/
theorem answers_replicate (count : Nat) :
    ∀ position, answers length position (List.replicate count .next) =
      round length position count := by
  induction count with
  | zero => exact fun _ => rfl
  | succ count inductionHypothesis =>
      intro position
      have first : (min position length + 0) % (length + 1) = min position length :=
        Nat.mod_eq_of_lt (by omega)
      rw [List.replicate_succ, answers, inductionHypothesis, round, round, List.range_succ_eq_map,
        List.map_cons, List.map_map, first, inside_min]
      simp only [min_move_next, Function.comp_def, Nat.succ_eq_add_one]

end CursorCall

/-! ## What is walked over -/

namespace Walked

variable {before middle last store : Store} {walked : Walked}

def storage : Walked → Addr
  | .elements a => a
  | .keys a => a

/-- The entries that a cursor walks over: elements of a list, or the names that a scope itself
binds, in the order of their declaration. -/
def row (store : Store) : Walked → List Value
  | .elements a => store.items a
  | .keys a => (store.scope a).bindings.keys.map Value.str

/-- There is a list or map of the kind that is walked over. -/
def Fits (store : Store) : Walked → Prop
  | .elements a => store.IsList a
  | .keys a => store.IsScope a

/-- What is walked over is not lent out, and there is a copy of each entry to be had. -/
structure Ready (store : Store) (walked : Walked) : Prop where
  fits : walked.Fits store
  free : walked.storage ∉ store.lent
  copied : ∀ entry ∈ walked.row store, ∃ made, CopyMode.plain.run store entry = .ok made

/-- What stands at a position has been copied, or nothing stands there and nothing is shown. -/
inductive Shows (before after : Store) (walked : Walked) : Option Nat → Option Value → Prop where
  | entry {position : Nat} {entry value : Value}
      (here : (walked.row before)[position]? = some entry)
      (copied : Copied before after .plain entry value) :
      Shows before after walked (some position) (some value)
  | nothing : Shows before after walked none none

theorem Shows.extend (extension : middle.Extends last) {position : Option Nat}
    {value : Option Value} (shows : Shows before middle walked position value) :
    Shows before last walked position value := by
  cases shows with
  | entry here copied => exact .entry here (copied.extend extension)
  | nothing => exact .nothing

theorem Fits.lt_size (fits : walked.Fits store) : walked.storage < store.size := by
  cases walked with
  | elements a => exact IsList.lt_size fits
  | keys a => exact IsScope.lt_size fits

/-- What is added to storage is not walked over. -/
theorem row_eq (extension : before.Extends store) (fits : walked.Fits before) :
    walked.row store = walked.row before := by
  cases walked with
  | elements a => exact extension.items_eq fits.lt_size
  | keys a =>
      have same : store.scope a = before.scope a := extension.scope_eq fits.lt_size
      rw [row, row, same]

end Walked

/-- The cursor after a call, if so many entries are walked over. -/
def Cursor.moved (length : Nat) (cursor : Cursor) (call : CursorCall) : Cursor :=
  { cursor with position := call.move length cursor.position }

/-- The cursor after several calls. -/
def Cursor.movedBy (length : Nat) (cursor : Cursor) (calls : List CursorCall) : Cursor :=
  { cursor with position := CursorCall.stands length cursor.position calls }

/-! ## One step -/

namespace Cursor

variable {store after : Store} {a : Addr} {position : Nat}

theorem next_elements_of_some (free : a ∉ store.lent) {element value : Value}
    (here : (store.items a)[position]? = some element)
    (copied : store.copy element = .ok (value, after)) :
    Cursor.next ⟨.elements a, position⟩ store =
      .ok ((some value, ⟨.elements a, position + 1⟩), after) := by
  have current : Cursor.current? ⟨.elements a, position⟩ store = .ok (some value, after) := by
    simp only [current?, readList_of_free free, bind, Except.bind, here, copied]
  rw [next, current]
  rfl

theorem next_elements_of_none (free : a ∉ store.lent)
    (beyond : (store.items a)[position]? = none) :
    Cursor.next ⟨.elements a, position⟩ store = .ok ((none, ⟨.elements a, 0⟩), store) := by
  have current : Cursor.current? ⟨.elements a, position⟩ store = .ok (none, store) := by
    simp only [current?, readList_of_free free, bind, Except.bind, beyond]
  rw [next, current]
  rfl

end Cursor

theorem Walked.held_of_mem_row {store : Store} (sound : store.Sound) {walked : Walked}
    {entry : Value} (member : entry ∈ walked.row store) : entry.Held store := by
  cases walked with
  | elements a => exact sound.items_held a entry member
  | keys a =>
      obtain ⟨key, _, rfl⟩ := List.mem_map.mp member
      exact Value.held_scalar store _

namespace Walked.Ready

open Cursor

variable {before store : Store} {walked : Walked}

/-- A step shows the entry at the position of the cursor and moves on, or shows nothing and
starts over. -/
theorem next (sound : before.Sound) (ready : walked.Ready before)
    (extension : before.Extends store) (position : Nat) :
    ∃ found after, Cursor.next ⟨walked, position⟩ store =
        .ok ((found, moved (walked.row before).length ⟨walked, position⟩ .next), after) ∧
      store.Extends after ∧
      walked.Shows before after (CursorCall.inside (walked.row before).length position) found := by
  have free : walked.storage ∉ store.lent := extension.lent ▸ ready.free
  have same := row_eq extension ready.fits
  rw [CursorCall.inside, moved, CursorCall.move]
  cases here : (walked.row before)[position]? with
  | none =>
      have beyond := Nat.not_lt.mpr (List.getElem?_eq_none_iff.mp here)
      rw [if_neg beyond, if_neg beyond]
      refine ⟨none, store, ?_, .refl store, .nothing⟩
      rw [← same] at here
      cases walked with
      | elements a => exact next_elements_of_none free here
      | keys a =>
          rw [row, List.getElem?_map, Option.map_eq_none_iff] at here
          exact next_keys_of_none free here
  | some entry =>
      have inRow : position < (walked.row before).length := (List.getElem?_eq_some_iff.mp here).1
      have member := List.mem_of_getElem? here
      rw [if_pos inRow, if_pos inRow]
      obtain ⟨value, after, copied, added, related⟩ :=
        CopyMode.run_again sound.toTyped (held_of_mem_row sound member) .plain extension
          (ready.copied entry member)
      refine ⟨some value, after, ?_, added, .entry here related⟩
      rw [← same] at here
      cases walked with
      | elements a => exact next_elements_of_some free here copied
      | keys a =>
          rw [row, List.getElem?_map, Option.map_eq_some_iff] at here
          obtain ⟨key, bound, rfl⟩ := here
          cases copied
          exact next_keys_of_some free bound

end Walked.Ready

/-! ## Calls of several cursors -/

section Several

variable {ι : Type} [DecidableEq ι]

/-- Performs calls of several cursors, in order, and answers what each step has shown. -/
def Cursor.play : List (ι × CursorCall) → (ι → Cursor) → Store →
    Except Fault ((List (ι × Option Value) × (ι → Cursor)) × Store)
  | [], cursors, store => .ok (([], cursors), store)
  | (i, .next) :: rest, cursors, store => do
      let ((found, cursor), store) ← (cursors i).next store
      let ((shown, cursors), store) ← play rest (Function.update cursors i cursor) store
      .ok (((i, found) :: shown, cursors), store)
  | (i, .reset) :: rest, cursors, store =>
      play rest (Function.update cursors i (cursors i).reset) store

/-- The part of what is listed that belongs to one of several cursors. -/
def ownPart {α : Type} (i : ι) (listed : List (ι × α)) : List α :=
  listed.filterMap fun entry => if entry.1 = i then some entry.2 else none

theorem ownPart_cons_self {α : Type} (i : ι) (x : α) (rest : List (ι × α)) :
    ownPart i ((i, x) :: rest) = x :: ownPart i rest :=
  List.filterMap_cons_some (if_pos rfl)

theorem ownPart_cons_of_ne {α : Type} {i j : ι} (other : j ≠ i) (x : α) (rest : List (ι × α)) :
    ownPart i ((j, x) :: rest) = ownPart i rest :=
  List.filterMap_cons_none (if_neg other)

/-- What a cursor has shown to its calls, and where it stands then, if it has made the walk. -/
structure Cursor.MakesWalk (before after : Store) (cursor : Cursor) (calls : List CursorCall)
    (shown : List (Option Value)) (later : Cursor) : Prop where
  shown : List.Forall₂ (cursor.walked.Shows before after)
    (CursorCall.answers (cursor.walked.row before).length cursor.position calls) shown
  stands : later = cursor.movedBy (cursor.walked.row before).length calls

namespace Cursor

variable {before middle after : Store} {cursor later : Cursor} {calls : List CursorCall}
  {shown : List (Option Value)}

/-- The walk goes on from where a step has led. -/
theorem MakesWalk.next {found : Option Value} (extension : middle.Extends after)
    (shows : cursor.walked.Shows before middle
      (CursorCall.inside (cursor.walked.row before).length cursor.position) found)
    (rest : MakesWalk before after (cursor.moved (cursor.walked.row before).length .next)
      calls shown later) :
    cursor.MakesWalk before after (.next :: calls) (found :: shown) later :=
  ⟨.cons (shows.extend extension) rest.shown, rest.stands⟩

theorem MakesWalk.reset (rest : cursor.reset.MakesWalk before after calls shown later) :
    cursor.MakesWalk before after (.reset :: calls) shown later :=
  ⟨rest.shown, rest.stands⟩

/-- After a reset, a walk goes on from the start. -/
theorem MakesWalk.of_reset (walks : cursor.MakesWalk before after (.reset :: calls) shown later) :
    MakesWalk before after ⟨cursor.walked, 0⟩ calls shown later :=
  ⟨walks.shown, walks.stands⟩

/-- A walk goes on from where its first calls have led. -/
theorem MakesWalk.split {more : List CursorCall}
    (walks : cursor.MakesWalk before after (calls ++ more) shown later) :
    ∃ first rest, shown = first ++ rest ∧
      cursor.MakesWalk before after calls first
        (cursor.movedBy (cursor.walked.row before).length calls) ∧
      (cursor.movedBy (cursor.walked.row before).length calls).MakesWalk before after more rest
        later := by
  obtain ⟨all, stands⟩ := walks
  rw [CursorCall.answers_append] at all
  let count := (CursorCall.answers (cursor.walked.row before).length cursor.position calls).length
  have early := List.forall₂_take count all
  have late := List.forall₂_drop count all
  rw [List.take_left] at early
  rw [List.drop_left] at late
  refine ⟨_, _, (List.take_append_drop count shown).symm, ⟨early, rfl⟩, late, ?_⟩
  rw [stands, movedBy, CursorCall.stands, List.foldl_append]
  rfl

theorem walked_update {cursors : ι → Cursor} {j : ι} {other : Cursor}
    (same : other.walked = (cursors j).walked) (i : ι) :
    (Function.update cursors j other i).walked = (cursors i).walked := by
  by_cases here : i = j
  · rw [here, Function.update_self, same]
  · rw [Function.update_of_ne here]

/-- However the calls are mixed, each cursor makes the walk of its own calls. -/
theorem play_makesWalk (sound : before.Sound) (calls : List (ι × CursorCall)) :
    ∀ (cursors : ι → Cursor) (store : Store), (∀ i, (cursors i).walked.Ready before) →
      before.Extends store → ∃ shown later after,
        play calls cursors store = .ok ((shown, later), after) ∧ store.Extends after ∧
        ∀ i, (cursors i).MakesWalk before after (ownPart i calls) (ownPart i shown) (later i) := by
  induction calls with
  | nil =>
      intro cursors store _ _
      exact ⟨[], cursors, store, rfl, .refl store, fun i => ⟨.nil, rfl⟩⟩
  | cons call rest inductionHypothesis =>
      obtain ⟨j, call⟩ := call
      intro cursors store ready extension
      have later : ∀ other : Cursor, other.walked = (cursors j).walked →
          ∀ i, (Function.update cursors j other i).walked.Ready before := by
        intro other same i
        rw [walked_update same]
        exact ready i
      cases call with
      | next =>
          obtain ⟨found, middle, stepped, added, shows⟩ :=
            (ready j).next sound extension (cursors j).position
          have kept := later ((cursors j).moved ((cursors j).walked.row before).length .next) rfl
          obtain ⟨shown, last, after, played, addedToo, each⟩ :=
            inductionHypothesis _ middle kept (extension.trans added)
          refine ⟨(j, found) :: shown, last, after, ?_, added.trans addedToo, fun i => ?_⟩
          · have stepped : (cursors j).next store = .ok ((found, _), middle) := stepped
            simp only [play, stepped, bind, Except.bind, played]
          · -- Only the cursor that is called moves.
            have walks := each i
            by_cases same : j = i
            · subst same
              rw [Function.update_self] at walks
              rw [ownPart_cons_self, ownPart_cons_self]
              exact .next addedToo shows walks
            · rw [Function.update_of_ne (Ne.symm same)] at walks
              rwa [ownPart_cons_of_ne same, ownPart_cons_of_ne same]
      | reset =>
          obtain ⟨shown, last, after, played, added, each⟩ :=
            inductionHypothesis _ store (later (cursors j).reset rfl) extension
          refine ⟨shown, last, after, by rw [play, played], added, fun i => ?_⟩
          have walks := each i
          by_cases same : j = i
          · subst same
            rw [Function.update_self] at walks
            rw [ownPart_cons_self]
            exact .reset walks
          · rw [Function.update_of_ne (Ne.symm same)] at walks
            rwa [ownPart_cons_of_ne same]

end Cursor

end Several

/-! ## Passes -/

namespace Walked.Ready

open Cursor

variable {before store : Store} {walked : Walked}

/-- Steps taken short of the end leave the cursor behind the last entry that they show. -/
theorem take (sound : before.Sound) (ready : walked.Ready before) (count : Nat) :
    ∀ (position : Nat) (store : Store), before.Extends store → ∃ values after,
      Cursor.take count ⟨walked, position⟩ store =
        .ok ((values, ⟨walked,
          if count ≤ (walked.row before).length - position then position + count else 0⟩), after) ∧
      store.Extends after ∧
      CopiedAll before after .plain (((walked.row before).drop position).take count) values := by
  induction count with
  | zero =>
      intro position store _
      exact ⟨[], store, rfl, .refl store, .nil _⟩
  | succ count inductionHypothesis =>
      intro position store extension
      obtain ⟨found, middle, stepped, added, shows⟩ := ready.next sound extension position
      rcases Nat.lt_or_ge position (walked.row before).length with here | beyond
      · rw [CursorCall.inside, if_pos here] at shows
        rw [moved, CursorCall.move, if_pos here] at stepped
        obtain ⟨values, after, taken, addedToo, copied⟩ :=
          inductionHypothesis (position + 1) middle (extension.trans added)
        cases shows with
        | @entry _ entry value there related =>
            refine ⟨value :: values, after, ?_, added.trans addedToo, ?_⟩
            · have same : (count ≤ (walked.row before).length - (position + 1)) ↔
                  count + 1 ≤ (walked.row before).length - position := by omega
              simp only [Cursor.take, stepped, bind, Except.bind, taken, same, Nat.add_assoc,
                Nat.add_comm 1 count]
            · obtain ⟨_, rfl⟩ := List.getElem?_eq_some_iff.mp there
              rw [List.drop_eq_getElem_cons here, List.take_succ_cons]
              exact .cons (related.extend addedToo) copied
      · rw [CursorCall.inside, if_neg (Nat.not_lt.mpr beyond)] at shows
        rw [moved, CursorCall.move, if_neg (Nat.not_lt.mpr beyond)] at stepped
        cases shows with
        | nothing =>
            refine ⟨[], middle, ?_, added, ?_⟩
            · have short : ¬ count + 1 ≤ (walked.row before).length - position := by omega
              simp only [Cursor.take, stepped, bind, Except.bind, if_neg short]
            · rw [List.drop_of_length_le beyond, List.take_nil]
              exact .nil _

/-- Steps that are asked for beyond the end are not made. -/
theorem take_eq (sound : before.Sound) (ready : walked.Ready before) (count : Nat) :
    ∀ (more position : Nat) (store : Store), before.Extends store →
      (walked.row before).length - position < count →
      (walked.row before).length - position < more →
        Cursor.take count ⟨walked, position⟩ store = Cursor.take more ⟨walked, position⟩ store := by
  induction count with
  | zero => exact fun _ _ _ _ impossible => absurd impossible (Nat.not_lt_zero _)
  | succ count inductionHypothesis =>
      intro more position store extension enough enoughToo
      cases more with
      | zero => cases enoughToo
      | succ more =>
          obtain ⟨found, middle, stepped, added, shows⟩ := ready.next sound extension position
          cases found with
          | none => simp only [Cursor.take, stepped, bind, Except.bind]
          | some value =>
              have here : position < (walked.row before).length := by
                rw [CursorCall.inside] at shows
                split at shows
                · assumption
                · cases shows
              have same := inductionHypothesis more (position + 1) middle
                (extension.trans added) (by omega) (by omega)
              rw [moved, CursorCall.move, if_pos here] at stepped
              simp only [Cursor.take, stepped, bind, Except.bind, same]

theorem length (ready : walked.Ready before) (extension : before.Extends store) (position : Nat) :
    Cursor.length ⟨walked, position⟩ store = .ok (walked.row before).length := by
  have free := ready.free
  rw [← extension.lent] at free
  rw [← row_eq extension ready.fits]
  cases walked with
  | elements a =>
      simp only [Cursor.length, readList_of_free (show a ∉ store.lent from free)]
      rfl
  | keys a =>
      simp only [Cursor.length, bindings_of_free (show a ∉ store.lent from free), row, Table.keys,
        List.length_map]
      rfl

/-- A pass takes one step more than there are entries. -/
theorem pass_eq (ready : walked.Ready before) (extension : before.Extends store)
    (position : Nat) : Cursor.pass ⟨walked, position⟩ store =
      Cursor.take ((walked.row before).length + 1) ⟨walked, position⟩ store := by
  rw [Cursor.pass, ready.length extension]
  rfl

end Walked.Ready

/-- What passes over one row show, whatever has been added to storage before they are made. -/
structure Walked.Passes (before : Store) (walked : Walked) : Prop where
  /-- A pass shows all entries ahead of the cursor and leaves it at the start. -/
  whole : ∀ (position : Nat) (store : Store), before.Extends store → ∃ values after,
    Cursor.pass ⟨walked, position⟩ store = .ok ((values, ⟨walked, 0⟩), after) ∧
      store.Extends after ∧
      CopiedAll before after .plain ((walked.row before).drop position) values
  /-- A pass is what all step counts beyond the end come to. -/
  ends : ∀ (position count : Nat) (store : Store), before.Extends store →
    (walked.row before).length - position < count →
      Cursor.take count ⟨walked, position⟩ store = Cursor.pass ⟨walked, position⟩ store
  part : ∀ (position count : Nat) (store : Store), before.Extends store →
    count ≤ (walked.row before).length - position → ∃ values after,
      Cursor.take count ⟨walked, position⟩ store =
          .ok ((values, ⟨walked, position + count⟩), after) ∧
        store.Extends after ∧ values.length = count ∧
        CopiedAll before after .plain (((walked.row before).drop position).take count) values
  /-- A pass that is left and taken up again loses nothing and repeats nothing. -/
  resumed : ∀ (position count : Nat) (store middle later : Store) (values : List Value)
      (cursor : Cursor), before.Extends store → count ≤ (walked.row before).length - position →
    Cursor.take count ⟨walked, position⟩ store = .ok ((values, cursor), middle) →
      middle.Extends later → ∃ rest after,
        cursor.pass later = .ok ((rest, ⟨walked, 0⟩), after) ∧
          CopiedAll before after .plain ((walked.row before).drop position) (values ++ rest)

/-- How cursors over storage that nothing is written to walk. -/
structure Store.Walks (store : Store) : Prop where
  /-- Calls of several cursors in any order write nothing, and each cursor makes its walk. -/
  several : ∀ {ι : Type} [DecidableEq ι] (calls : List (ι × CursorCall)) (cursors : ι → Cursor),
    (∀ i, (cursors i).walked.Ready store) → ∃ shown later after,
      Cursor.play calls cursors store = .ok ((shown, later), after) ∧ store.Extends after ∧
        ∀ i, (cursors i).walked.row after = (cursors i).walked.row store ∧
          (cursors i).MakesWalk store after (ownPart i calls) (ownPart i shown) (later i)
  /-- From wherever its calls have led it, a cursor goes around in a circle if it is asked for
  entries only, whatever other cursors are asked for. -/
  rounds : ∀ {ι : Type} [DecidableEq ι] (calls : List (ι × CursorCall)) (cursors : ι → Cursor)
      (i : ι) (earlier : List CursorCall) (count : Nat),
    (∀ i, (cursors i).walked.Ready store) →
    ownPart i calls = earlier ++ List.replicate count .next →
    ∃ shown later after first round middle,
      Cursor.play calls cursors store = .ok ((shown, later), after) ∧
        ownPart i shown = first ++ round ∧
        (cursors i).MakesWalk store after earlier first middle ∧
        List.Forall₂ ((cursors i).walked.Shows store after)
          (CursorCall.round ((cursors i).walked.row store).length middle.position count) round
  /-- Wherever its calls have led it, a reset leads it back to the start. -/
  restarts : ∀ {ι : Type} [DecidableEq ι] (calls : List (ι × CursorCall)) (cursors : ι → Cursor)
      (i : ι) (earlier more : List CursorCall),
    (∀ i, (cursors i).walked.Ready store) →
    ownPart i calls = earlier ++ .reset :: more →
    ∃ shown later after first rest middle,
      Cursor.play calls cursors store = .ok ((shown, later), after) ∧
        ownPart i shown = first ++ rest ∧
        (cursors i).MakesWalk store after earlier first middle ∧
        Cursor.MakesWalk store after ⟨(cursors i).walked, 0⟩ more rest (later i)
  passes : ∀ walked : Walked, walked.Ready store → walked.Passes store
  /-- Outside all changes in place, a row is ready if each of its entries can be copied. -/
  ready : store.lent = [] → ∀ walked : Walked, walked.Fits store →
    (∀ entry ∈ walked.row store, Terminates (CopyMode.plain.attempt store entry)) →
      walked.Ready store

section Store

variable {store : Store}

theorem Walked.Ready.makesPasses (sound : store.Sound) {walked : Walked}
    (ready : walked.Ready store) : walked.Passes store := by
  have whole : ∀ (position : Nat) (later : Store), store.Extends later → ∃ values after,
      Cursor.pass ⟨walked, position⟩ later = .ok ((values, ⟨walked, 0⟩), after) ∧
        later.Extends after ∧
        CopiedAll store after .plain ((walked.row store).drop position) values := by
    intro position later extension
    obtain ⟨values, after, taken, added, copied⟩ :=
      ready.take sound ((walked.row store).length + 1) position later extension
    rw [if_neg (by omega)] at taken
    rw [List.take_of_length_le (by rw [List.length_drop]; omega)] at copied
    exact ⟨values, after, (ready.pass_eq extension position).trans taken, added, copied⟩
  refine { whole, ends := ?_, part := ?_, resumed := ?_ }
  · intro position count later extension enough
    rw [ready.pass_eq extension]
    exact ready.take_eq sound count _ position later extension enough (by omega)
  · intro position count later extension short
    obtain ⟨values, after, taken, added, copied⟩ := ready.take sound count position later extension
    rw [if_pos short] at taken
    refine ⟨values, after, taken, added, ?_, copied⟩
    rw [copied.length_eq, List.length_take, List.length_drop, Nat.min_eq_left short]
  · intro position count start middle later values cursor extension short taken added
    obtain ⟨first, _, taken', extends', copied⟩ := ready.take sound count position start extension
    rw [taken, if_pos short] at taken'
    cases taken'
    obtain ⟨rest, after, passed, addedToo, copiedToo⟩ :=
      whole (position + count) later ((extension.trans extends').trans added)
    have both := (copied.extend (added.trans addedToo)).append copiedToo
    rw [← List.drop_drop, List.take_append_drop] at both
    exact ⟨rest, after, passed, both⟩

theorem Store.Sound.walks (sound : store.Sound) : store.Walks where
  several calls cursors ready := by
    obtain ⟨shown, later, after, played, added, each⟩ :=
      Cursor.play_makesWalk sound calls cursors store ready (.refl store)
    exact ⟨shown, later, after, played, added,
      fun i => ⟨Walked.row_eq added (ready i).fits, each i⟩⟩
  rounds calls cursors i earlier count ready own := by
    obtain ⟨shown, later, after, played, -, each⟩ :=
      Cursor.play_makesWalk sound calls cursors store ready (.refl store)
    have walks := each i
    rw [own] at walks
    obtain ⟨first, round, parted, before, onward⟩ := walks.split
    refine ⟨shown, later, after, first, round, _, played, parted, before, ?_⟩
    rw [← CursorCall.answers_replicate]
    exact onward.shown
  restarts calls cursors i earlier more ready own := by
    obtain ⟨shown, later, after, played, -, each⟩ :=
      Cursor.play_makesWalk sound calls cursors store ready (.refl store)
    have walks := each i
    rw [own] at walks
    obtain ⟨first, rest, parted, before, onward⟩ := walks.split
    exact ⟨shown, later, after, first, rest, _, played, parted, before, onward.of_reset⟩
  passes walked ready := ready.makesPasses sound
  ready idle walked fits ends := by
    refine ⟨fits, by simp [idle], fun entry member => ?_⟩
    have held := Walked.held_of_mem_row sound member
    exact (CopyMode.terminates_iff sound.toTyped idle held .plain).2.mp (ends entry member)

end Store

namespace Session

/-- In every session that can come about, cursors walk. -/
theorem Reached.cursors_walk {session : Session} {frames : List Frame}
    (reached : session.Reached frames) : session.context.store.Walks :=
  reached.stands.sound.context.store.walks

/-- A cursor at the start of a list, one left far behind its end, and one over a scope that
binds nothing inside one that does. -/
def threeCursors : Fin 3 → Cursor
  | 0 => ⟨.elements 2, 0⟩
  | 1 => ⟨.elements 2, 5⟩
  | 2 => ⟨.keys 1, 0⟩

theorem cursors_walk_scopesAndList :
    scopesAndList.Reachable ∧ (∀ i, (threeCursors i).walked.Ready scopesAndList.context.store) ∧
      (∃ shown later after, Cursor.play [(0, .next), (1, .next), (2, .next), (1, .next), (0, .next)]
          threeCursors scopesAndList.context.store = .ok ((shown, later), after) ∧
        later 0 = ⟨.elements 2, 2⟩ ∧ later 1 = ⟨.elements 2, 1⟩ ∧ later 2 = ⟨.keys 1, 0⟩ ∧
        ownPart 2 shown = [none] ∧
        scopesAndList.context.store.Extends after) ∧
      (∃ shown later after, Cursor.play [(1, .next), (0, .next), (1, .reset), (1, .next)]
          threeCursors scopesAndList.context.store = .ok ((shown, later), after) ∧
        later 1 = ⟨.elements 2, 1⟩ ∧ (ownPart 1 shown).length = 2) ∧
      ∃ first middle rest last,
        Cursor.take 1 ⟨.elements 2, 0⟩ scopesAndList.context.store =
            .ok ((first, ⟨.elements 2, 1⟩), middle) ∧
          Cursor.pass ⟨.elements 2, 1⟩ middle = .ok ((rest, ⟨.elements 2, 0⟩), last) ∧
          (first ++ rest).length = 2 := by
  have walks := Reached.cursors_walk reachable_scopesAndList
  have fits : ∀ i, (threeCursors i).walked.Fits scopesAndList.context.store
    | 0 => ⟨_, rfl⟩
    | 1 => ⟨_, rfl⟩
    | 2 => ⟨_, rfl⟩
  have ready : ∀ i, (threeCursors i).walked.Ready scopesAndList.context.store := by
    intro i
    refine walks.ready rfl _ (fits i) fun entry member => ?_
    match i with
    | 0 | 1 =>
        rcases List.mem_pair.mp member with rfl | rfl
        · exact ⟨0, fun impossible => by cases impossible⟩
        · exact ⟨0, fun impossible => by cases impossible⟩
    | 2 => cases member
  refine ⟨reachable_scopesAndList, ready, ?_, ?_, ?_⟩
  · obtain ⟨shown, later, after, played, added, each⟩ := walks.several
      [(0, .next), (1, .next), (2, .next), (1, .next), (0, .next)] threeCursors ready
    refine ⟨shown, later, after, played, (each 0).2.stands, (each 1).2.stands,
      (each 2).2.stands, ?_, added⟩
    have none : List.Forall₂ _ [none] (ownPart 2 shown) := (each 2).2.shown
    generalize ownPart 2 shown = own at none
    rcases none with _ | ⟨⟨_⟩, ⟨_⟩⟩
    rfl
  · obtain ⟨shown, later, after, first, rest, _, played, parted, before, onward⟩ :=
      walks.restarts [(1, .next), (0, .next), (1, .reset), (1, .next)] threeCursors 1 [.next]
        [.next] ready rfl
    refine ⟨shown, later, after, played, onward.stands, ?_⟩
    rw [parted, List.length_append, ← before.shown.length_eq, ← onward.shown.length_eq]
    rfl
  · have extension := Store.Extends.refl scopesAndList.context.store
    have short : 1 ≤ ((Walked.elements 2).row scopesAndList.context.store).length - 0 := by decide
    have passes := walks.passes (.elements 2) (ready 0)
    obtain ⟨first, middle, taken, _⟩ := passes.part 0 1 _ extension short
    obtain ⟨rest, last, passed, copied⟩ :=
      passes.resumed 0 1 _ middle middle first _ extension short taken (.refl middle)
    exact ⟨first, middle, rest, last, taken, passed, copied.length_eq⟩

end Session

end ScopedValues
