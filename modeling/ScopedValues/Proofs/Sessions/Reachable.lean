import ScopedValues.Proofs.Sessions.Steps

/-!
Contract: the sessions that can come about, also inside changes in place.

Owns the changes in place that are under way, entering and leaving one, the sessions
that are reached by steps, entries and exits in any order, and their invariant.

Main statement: a reached session is sound, and what it has lent out is what the
changes under way hold; outside all changes nothing is lent out.

While a change is under way, any steps can be performed, and the slot that it works on
is a variable among the others.
-/

set_option autoImplicit false

namespace ScopedValues

open Store

/-- A change in place that is under way. -/
inductive Frame where
  | item (storage : Addr) (position : Nat) (slot : String)
  | entry (storage : Addr) (key : String) (slot : String)

namespace Frame

/-- The storage that is lent out meanwhile. -/
def storage : Frame → Addr
  | .item a _ _ => a
  | .entry a _ _ => a

/-- The variable that stands for the slot. -/
def slot : Frame → String
  | .item _ _ slot => slot
  | .entry _ _ slot => slot

def putBack (frame : Frame) (store : Store) (value : Value) : Store :=
  match frame with
  | .item a position _ => store.setPosition a position value
  | .entry a key _ => store.setEntry a key value

/-- The storage of a change is of the kind that it changes. -/
def Fits (store : Store) : Frame → Prop
  | .item a _ _ => store.IsList a
  | .entry a _ _ => store.IsScope a

theorem Fits.retain {frame : Frame} {before after : Store} (fits : frame.Fits before)
    (retains : before.Retains after) : frame.Fits after := by
  cases frame with
  | item a position slot => exact retains.lists a fits
  | entry a key slot => exact retains.scopes a fits

theorem develops_putBack {frame : Frame} {store : Store} (sound : store.Sound)
    (fits : frame.Fits store) {value : Value} (held : value.Held store) :
    store.Develops (frame.putBack store value) := by
  cases frame with
  | item a position slot => exact develops_setPosition sound fits held position
  | entry a key slot => exact develops_setEntry sound fits key held

end Frame

namespace Session

/-- Lends out the storage of a frame and moves the value of its place into its slot. -/
def enter (session : Session) (frame : Frame) (value : Value) (store : Store) : Session :=
  { session with
    context := { session.context with store := store.lend frame.storage }
    named := session.named.insert frame.slot value }

/-- Takes the storage of a frame back and puts the value of its slot where it came from. -/
def leave (session : Session) (frame : Frame) : Session :=
  let value := (session.named.get? frame.slot).getD Value.none
  { session with
    context := { session.context with
      store := frame.putBack session.context.store.regain value }
    named := session.named.erase frame.slot }

/-- The session after steps that are performed in order, whether they fail or not. -/
def run (session : Session) (steps : List Step) : Session :=
  steps.foldl (fun session step => (perform step session).2) session

def clearLog (session : Session) : Session :=
  { session with context := { session.context with log := [] } }

/-- The sessions that can come about, with the changes in place under way, innermost first. -/
inductive Reached : Session → List Frame → Prop where
  | start (tracing : Bool) : Reached (start tracing) []
  | step {session : Session} {frames : List Frame} (reached : Reached session frames)
      (step : Step) : Reached (perform step session).2 frames
  | clearLog {session : Session} {frames : List Frame} (reached : Reached session frames) :
      Reached session.clearLog frames
  | enterItem {session : Session} {frames : List Frame} (reached : Reached session frames)
      {name : String} {a : Addr} (handle : session.named.get? name = some (.list a))
      {index : Index} {position : Nat} {value : Value}
      (found : session.context.store.item a index = .ok (position, value)) (slot : String) :
      Reached (session.enter (.item a position slot) value session.context.store)
        (.item a position slot :: frames)
  | enterEntry {session : Session} {frames : List Frame} (reached : Reached session frames)
      {name : String} {a : Addr} (handle : session.named.get? name = some (.map a))
      {key : String} {owner : Addr} {value : Value} {store : Store}
      (found : session.context.store.entry a key = .ok (owner, value, store)) (slot : String) :
      Reached (session.enter (.entry owner key slot) value store)
        (.entry owner key slot :: frames)
  | leave {session : Session} {frame : Frame} {frames : List Frame}
      (reached : Reached session (frame :: frames)) : Reached (session.leave frame) frames

/-- The sessions that can come about with no change in place under way. -/
def Reachable (session : Session) : Prop :=
  Reached session []

theorem Reached.run {session : Session} {frames : List Frame} (reached : Reached session frames)
    (steps : List Step) : Reached (session.run steps) frames := by
  induction steps generalizing session with
  | nil => exact reached
  | cons step rest inductionHypothesis => exact inductionHypothesis (reached.step step)

theorem sound_start (tracing : Bool) : (start tracing).Sound where
  context :=
    { store := Sound.empty
      base := fun _ impossible => by cases impossible
      defaultGlobal := fun _ impossible => by cases impossible }
  named := fun _ impossible => by cases impossible

/-- What holds of a session while the changes of `frames` are under way. -/
structure Stands (session : Session) (frames : List Frame) : Prop where
  sound : session.Sound
  lent : session.context.store.lent = frames.map Frame.storage
  fits : ∀ frame ∈ frames, frame.Fits session.context.store

section Moves

variable {session : Session} {frames : List Frame}

theorem Stands.step (stands : session.Stands frames) (step : Step) :
    (perform step session).2.Stands frames := by
  obtain ⟨sound, grows, _⟩ := steady_perform step stands.sound
  refine ⟨sound, grows.store.lent.trans stands.lent, fun frame member => ?_⟩
  exact (stands.fits frame member).retain grows.store.toRetains

theorem Stands.enter (stands : session.Stands frames) {frame : Frame} {value : Value}
    {store : Store} (develops : session.context.store.Develops store) (fits : frame.Fits store)
    (held : value.Held store) : (session.enter frame value store).Stands (frame :: frames) := by
  have lent := Retains.of_payloads (payloads_lend store frame.storage)
  have onward := develops.grows.toRetains.trans lent
  refine ⟨⟨?_, ?_⟩, ?_, ?_⟩
  · exact stands.sound.context.retain
      (develops.sound.of_payloads (payloads_lend store frame.storage)) onward
  · intro entry member
    rcases Table.mem_insert member with rfl | old
    · exact held.retain lent
    · exact (stands.sound.named entry old).retain onward
  · show frame.storage :: store.lent = _
    rw [develops.grows.lent, stands.lent, List.map_cons]
  · intro inner member
    rcases List.mem_cons.mp member with rfl | outer
    · exact fits.retain lent
    · exact (stands.fits inner outer).retain onward

/-- Putting the value of its slot back develops the storage that a change took back. -/
theorem Stands.develops_leave {frame : Frame} (stands : session.Stands (frame :: frames)) :
    session.context.store.regain.Develops (session.leave frame).context.store := by
  have back : session.context.store.Retains session.context.store.regain := .of_payloads rfl
  have held : ((session.named.get? frame.slot).getD Value.none).Held
      session.context.store.regain := by
    cases bound : session.named.get? frame.slot with
    | none => exact Value.held_none _
    | some value => exact (get?_held stands.sound bound).retain back
  have storeSound := stands.sound.context.store.of_payloads
    (rfl : session.context.store.regain.payloads = session.context.store.payloads)
  exact Frame.develops_putBack storeSound
    ((stands.fits frame List.mem_cons_self).retain back) held

theorem Stands.retains_leave {frame : Frame} (stands : session.Stands (frame :: frames)) :
    session.context.store.Retains (session.leave frame).context.store := by
  have back : session.context.store.Retains session.context.store.regain := .of_payloads rfl
  exact back.trans stands.develops_leave.grows.toRetains

theorem Stands.leave {frame : Frame} (stands : session.Stands (frame :: frames)) :
    (session.leave frame).Stands frames := by
  have develops := stands.develops_leave
  have onward := stands.retains_leave
  refine ⟨⟨stands.sound.context.retain develops.sound onward, ?_⟩, ?_, ?_⟩
  · intro entry member
    exact (stands.sound.named entry (Table.mem_erase member)).retain onward
  · rw [develops.grows.lent, regain, stands.lent]
    rfl
  · intro outer member
    exact (stands.fits outer (List.mem_cons_of_mem frame member)).retain onward

end Moves

/-- Whatever the order of steps, entries and exits, the session that is reached stands. -/
theorem Reached.stands {session : Session} {frames : List Frame}
    (reached : Reached session frames) : session.Stands frames := by
  induction reached with
  | start tracing => exact ⟨sound_start tracing, rfl, by simp⟩
  | step _ step inductionHypothesis => exact inductionHypothesis.step step
  | clearLog _ inductionHypothesis =>
      obtain ⟨⟨⟨store, base, defaultGlobal⟩, named⟩, lent, fits⟩ := inductionHypothesis
      exact ⟨⟨⟨store, base, defaultGlobal⟩, named⟩, lent, fits⟩
  | enterItem _ handle found slot inductionHypothesis =>
      have sound := inductionHypothesis.sound
      have storeSound := sound.context.store
      exact inductionHypothesis.enter (.refl storeSound)
        ((Value.held_list _ _).mp (get?_held sound handle)) (item_held storeSound found)
  | enterEntry _ handle found slot inductionHypothesis =>
      have sound := inductionHypothesis.sound
      have isScope := (Value.held_map _ _).mp (get?_held sound handle)
      obtain ⟨develops, ownerIsScope, held⟩ :=
        entry_keeps sound.context.store isScope found
      exact inductionHypothesis.enter develops ownerIsScope held
  | leave _ inductionHypothesis => exact inductionHypothesis.leave

theorem Reached.whole {session : Session} {frames : List Frame}
    (reached : Reached session frames) : session.context.store.Whole := by
  refine ⟨reached.stands.sound.context.store, fun a member => ?_⟩
  rw [reached.stands.lent] at member
  obtain ⟨frame, under, rfl⟩ := List.mem_map.mp member
  have fits := reached.stands.fits frame under
  cases frame with
  | item a position slot => exact IsList.lt_size fits
  | entry a key slot => exact IsScope.lt_size fits

theorem Reachable.sound {session : Session} (reachable : session.Reachable) :
    session.context.store.Sound :=
  (Reached.stands reachable).sound.context.store

theorem Reachable.nothing_lent {session : Session} (reachable : session.Reachable) :
    session.context.store.lent = [] :=
  (Reached.stands reachable).lent

end Session

end ScopedValues
