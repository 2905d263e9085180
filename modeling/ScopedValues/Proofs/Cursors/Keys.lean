import ScopedValues.Proofs.Cursors.Rows
import ScopedValues.Proofs.Scopes.Chronicle

/-!
Contract: passes of a cursor over the keys of a scope that changes meanwhile.

Owns what happens to the row of keys, and the runs of a cursor with everything that happens
between its steps.

Main statement: the keys that a scope has now are the row that the run tells of, and the
position of the cursor is the number of keys it has passed.
-/

set_option autoImplicit false

namespace ScopedValues

open Store Incidents

/-! ## What happens to the row of keys -/

/-- A key that was not bound is added at the end, and one that was bound is removed. -/
def Deed.incidents (keys : List String) : Deed → Incidents String
  | .bind key _ => if key ∈ keys then [] else [.added key]
  | .erase key => if key ∈ keys then [.removed (keys.idxOf key) key] else []
  | .copied _ _ => []

def History.incidents (keys : List String) : History → Incidents String
  | [] => []
  | deed :: rest => History.incidents (deed.relist keys) rest ++ deed.incidents keys

section Row

variable {start : List String} {incidents : Incidents String}

theorem Deed.row_incidents (deed : Deed) (fair : Fair start incidents) :
    Fair start (deed.incidents (row start incidents) ++ incidents) ∧
      row start (deed.incidents (row start incidents) ++ incidents) =
        deed.relist (row start incidents) ∧
      passes (deed.incidents (row start incidents) ++ incidents) = passes incidents := by
  cases deed with
  | bind key value =>
      rw [Deed.incidents, relist]
      split
      · exact ⟨fair, rfl, rfl⟩
      · next fresh => exact ⟨⟨fresh, fair⟩, rfl, rfl⟩
  | erase key =>
      rw [Deed.incidents, relist]
      split
      · next bound =>
          have stands := List.getElem?_idxOf bound
          exact ⟨⟨stands, fair⟩, (List.erase_eq_eraseIdx_of_idxOf rfl).symm, rfl⟩
      · next unbound => exact ⟨fair, (List.erase_of_not_mem unbound).symm, rfl⟩
  | copied old new => exact ⟨fair, rfl, rfl⟩

theorem History.row_incidents (history : History) (fair : Fair start incidents) :
    Fair start (history.incidents (row start incidents) ++ incidents) ∧
      row start (history.incidents (row start incidents) ++ incidents) =
        history.foldl Deed.relist (row start incidents) ∧
      passes (history.incidents (row start incidents) ++ incidents) = passes incidents := by
  induction history generalizing incidents with
  | nil => exact ⟨fair, rfl, rfl⟩
  | cons deed rest inductionHypothesis =>
      obtain ⟨fairThere, moved, kept⟩ := deed.row_incidents fair
      have later := inductionHypothesis fairThere
      rw [moved, kept, ← List.append_assoc] at later
      exact later

theorem History.Makes.keys_eq {history : History} {before after : Table Value}
    (makes : history.Makes before after) :
    after.keys = history.foldl Deed.relist before.keys := by
  induction history generalizing before with
  | nil => exact congrArg Table.keys makes
  | cons deed rest inductionHypothesis =>
      obtain ⟨middle, first, later⟩ := makes
      rw [inductionHypothesis later, Deed.Makes.keys_eq first]
      rfl

end Row

/-! ## Steps of a cursor -/

namespace Cursor

variable {store after : Store} {a : Addr} {position : Nat} {cursor : Cursor}

theorem next_keys_of_lent (lent : a ∈ store.lent) :
    Cursor.next ⟨.keys a, position⟩ store = .error .conflict := by
  simp only [next, current?, Store.bindings, readScope_eq, if_pos lent]
  rfl

theorem next_keys_eq_some {value : Value}
    (answered : Cursor.next ⟨.keys a, position⟩ store = .ok ((some value, cursor), after)) :
    ∃ key, (store.scope a).bindings.keys[position]? = some key ∧ value = .str key ∧
      cursor = ⟨.keys a, position + 1⟩ ∧ after = store := by
  by_cases lent : a ∈ store.lent
  · rw [next_keys_of_lent lent] at answered
    cases answered
  · cases here : (store.scope a).bindings.keys[position]? with
    | none =>
        rw [next_keys_of_none lent here] at answered
        cases answered
    | some key =>
        rw [next_keys_of_some lent here] at answered
        cases answered
        exact ⟨key, rfl, rfl, rfl, rfl⟩

theorem next_keys_eq_none
    (answered : Cursor.next ⟨.keys a, position⟩ store = .ok ((none, cursor), after)) :
    (store.scope a).bindings.keys.length ≤ position := by
  by_cases lent : a ∈ store.lent
  · rw [next_keys_of_lent lent] at answered
    cases answered
  · cases here : (store.scope a).bindings.keys[position]? with
    | none => exact List.getElem?_eq_none_iff.mp here
    | some key =>
        rw [next_keys_of_some lent here] at answered
        cases answered

end Cursor

/-! ## Passes -/

/-- A cursor on its way, while changes in place are under way, innermost first. -/
structure Tour where
  cursor : Cursor
  context : Context
  frames : List Frame

abbrev Tour.store (tour : Tour) : Store :=
  tour.context.store

/-- A pass over the keys of a scope. Between the steps of the cursor, anything is written to
the scope through whatever scope, or changed in place. -/
inductive KeyPass (scope : Addr) (context : Context) (frames : List Frame) :
    Incidents String → Tour → Prop where
  | start : KeyPass scope context frames [] ⟨⟨.keys scope, 0⟩, context, frames⟩
  | move {incidents : Incidents String} {tour : Tour} {deeds : History} {later : Context}
      {laterFrames : List Frame} (sofar : KeyPass scope context frames incidents tour)
      (move : Scene.Move ⟨scope, tour.context, tour.frames⟩ deeds ⟨scope, later, laterFrames⟩) :
      KeyPass scope context frames
        (deeds.incidents (tour.store.scope scope).bindings.keys ++ incidents)
        ⟨tour.cursor, later, laterFrames⟩
  | next {incidents : Incidents String} {tour : Tour} {key : String} {cursor : Cursor}
      {store : Store} (sofar : KeyPass scope context frames incidents tour)
      (answered : tour.cursor.next tour.store = .ok ((some (.str key), cursor), store)) :
      KeyPass scope context frames (.passed key :: incidents)
        ⟨cursor, { tour.context with store }, tour.frames⟩

namespace KeyPass

variable {scope : Addr} {context : Context} {frames : List Frame} {incidents : Incidents String}
  {tour : Tour}

/-- How a pass over keys stands. -/
structure Stands (scope : Addr) (start : List String) (incidents : Incidents String)
    (tour : Tour) : Prop extends Scene.Stands ⟨scope, tour.context, tour.frames⟩ where
  fair : Fair start incidents
  keys : (tour.store.scope scope).bindings.keys = row start incidents
  cursor : tour.cursor = ⟨.keys scope, (passes incidents).length⟩

theorem stands (pass : KeyPass scope context frames incidents tour)
    (stands : Scene.Stands ⟨scope, context, frames⟩) :
    Stands scope (context.store.scope scope).bindings.keys incidents tour := by
  induction pass with
  | start =>
      exact ⟨stands, stands.sound.keys scope, rfl, rfl⟩
  | @move incidents tour deeds later laterFrames _ move inductionHypothesis =>
      obtain ⟨scene, fair, keys, cursor⟩ := inductionHypothesis
      obtain ⟨sceneThere, made⟩ := move.makes scene
      obtain ⟨fairThere, moved, kept⟩ := deeds.row_incidents fair
      refine ⟨sceneThere, keys ▸ fairThere, ?_, ?_⟩
      · exact made.keys_eq.trans (keys ▸ moved.symm)
      · rw [keys, kept]
        exact cursor
  | @next incidents tour key cursor store _ answered inductionHypothesis =>
      obtain ⟨scene, fair, keys, position⟩ := inductionHypothesis
      rw [position] at answered
      obtain ⟨other, stands, same, rfl, rfl⟩ := Cursor.next_keys_eq_some answered
      cases same
      refine ⟨scene, ⟨keys ▸ stands, fair⟩, keys, ?_⟩
      rw [passes, List.length_append, List.length_singleton]

end KeyPass

end ScopedValues
