import ScopedValues.Proofs.Ownership.Steps
import ScopedValues.Proofs.Sessions.Turns

/-!
Contract: every list and every map belongs to one tuple at most.

Owns the tuples of a moment, wherever they stand, the containers that a tuple holds as
elements, and the account of slots that every turn keeps.

Main statement: over every run in which tuples are collected from new values only, no list
and no map is an element of two tuples, nor twice an element of one.

During a change in place, the value that is changed is in its variable, and its place in
storage holds nothing.
-/

set_option autoImplicit false

namespace ScopedValues

open Store

/-! ## Tuples and what they hold -/

namespace Value

mutual

/-- The tuples that a value consists of, by their elements, the outermost first. -/
def tuples : Value → List (List Value)
  | .scalar _ => []
  | .tuple items => items :: tuplesOfAll items
  | .list _ => []
  | .map _ => []
termination_by structural value => value

def tuplesOfAll : List Value → List (List Value)
  | [] => []
  | item :: rest => tuples item ++ tuplesOfAll rest
termination_by structural items => items

end

theorem tuplesOfAll_eq_flatMap (items : List Value) : tuplesOfAll items = items.flatMap tuples := by
  induction items with
  | nil => rfl
  | cons item rest inductionHypothesis => simp [tuplesOfAll, inductionHypothesis]

/-- The list or map that a value stands for. -/
def container? : Value → Option Addr
  | .list a => some a
  | .map a => some a
  | _ => Option.none

/-- The lists and maps among the elements of a tuple. -/
def containers (items : List Value) : List Addr :=
  items.filterMap container?

theorem count_addresses (value : Value) (c : Addr) :
    value.addresses.count c = value.container?.toList.count c + value.handed.count c := by
  cases value <;> simp [container?, handed]

theorem count_containers (items : List Value) (c : Addr) :
    (items.flatMap addresses).count c =
      (containers items).count c + (items.flatMap handed).count c := by
  induction items with
  | nil => rfl
  | cons item rest inductionHypothesis =>
      have split : containers (item :: rest) = item.container?.toList ++ containers rest := by
        unfold containers
        cases found : item.container? <;> simp [found]
      rw [split, List.flatMap_cons, List.flatMap_cons, List.count_append, List.count_append,
        List.count_append, count_addresses, inductionHypothesis]
      omega

/-- The slots of a value are the containers of its tuples. -/
theorem count_tuples (value : Value) (c : Addr) :
    (value.tuples.flatMap containers).count c = value.handed.count c := by
  induction value with
  | scalar x => rfl
  | tuple items inductionHypothesis =>
      have inner : ((items.flatMap tuples).flatMap containers).count c =
          (items.flatMap handed).count c := by
        rw [List.flatMap_assoc, List.count_flatMap, List.count_flatMap]
        exact congrArg List.sum (List.map_congr_left inductionHypothesis)
      rw [tuples, tuplesOfAll_eq_flatMap, List.flatMap_cons, List.count_append, inner,
        handed_tuple, count_containers]
  | list a => rfl
  | map a => rfl

theorem count_tuples_of_all (values : List Value) (c : Addr) :
    ((values.flatMap tuples).flatMap containers).count c = (values.flatMap handed).count c := by
  rw [List.flatMap_assoc, List.count_flatMap, List.count_flatMap]
  exact congrArg List.sum (List.map_congr_left fun value _ => count_tuples value c)

end Value

/-! ## Places under change -/

namespace Frame

/-- What the place of a change holds in storage, which has moved into its slot. -/
def read (frame : Frame) (store : Store) : Value :=
  match frame with
  | .item a position _ => (store.items a).getD position Value.none
  | .entry a key _ => ((store.scope a).bindings.get? key).getD Value.none

theorem gap (frame : Frame) : Gap frame.storage frame.read frame.putBack := by
  cases frame with
  | item a position slot => exact gap_position a position
  | entry a key slot => exact gap_entry a key

/-- The slots that places under change stand on credit for. -/
def owed (frames : List Frame) (store : Store) : List Addr :=
  frames.flatMap fun frame => (frame.read store).handed

theorem owed_cons (frame : Frame) (frames : List Frame) (store : Store) :
    owed (frame :: frames) store = (frame.read store).handed ++ owed frames store :=
  List.flatMap_cons

theorem owed_congr {frames : List Frame} {before after : Store}
    (same : ∀ frame ∈ frames, after.payloads[frame.storage]? = before.payloads[frame.storage]?) :
    owed frames after = owed frames before := by
  rw [owed, owed, List.flatMap_def, List.flatMap_def]
  refine congrArg _ (List.map_congr_left fun frame member => ?_)
  rw [frame.gap.stays before after (same frame member)]

theorem payload_putBack_of_ne (frame : Frame) (store : Store) (value : Value) {a : Addr}
    (different : a ≠ frame.storage) :
    (frame.putBack store value).payloads[a]? = store.payloads[a]? := by
  obtain ⟨payload, same, _⟩ := frame.gap.exchange store value
  rw [same]
  simp [Store.write, Ne.symm different]

end Frame

namespace Moment

/-- The storage with nothing in the places under change. -/
def storage (moment : Moment) : Store :=
  moment.frames.foldr (fun frame store => frame.putBack store Value.none) moment.store

/-- The values of all variables, elements and bindings. -/
def values (moment : Moment) : List Value :=
  moment.session.named.entries.map Prod.snd ++
    moment.storage.payloads.toList.flatMap Payload.values

/-- Every tuple, wherever it stands, by its elements. -/
def tuples (moment : Moment) : List (List Value) :=
  moment.values.flatMap Value.tuples

theorem payload_storage (frames : List Frame) (store : Store) {a : Addr}
    (untouched : a ∉ frames.map Frame.storage) :
    (frames.foldr (fun frame store => frame.putBack store Value.none) store).payloads[a]? =
      store.payloads[a]? := by
  induction frames with
  | nil => rfl
  | cons frame frames inductionHypothesis =>
      rw [List.map_cons, List.mem_cons, not_or] at untouched
      rw [List.foldr_cons, frame.payload_putBack_of_ne _ _ untouched.1]
      exact inductionHypothesis untouched.2

/-- Places that hold nothing give their slots up. -/
theorem count_slots_storage (store : Store) (c : Addr) {frames : List Frame}
    (distinct : (frames.map Frame.storage).Nodup) :
    (frames.foldr (fun frame store => frame.putBack store Value.none) store).slots.count c +
      (Frame.owed frames store).count c ≤ store.slots.count c := by
  induction frames with
  | nil => simp [Frame.owed]
  | cons frame frames inductionHypothesis =>
      obtain ⟨apart, distinct⟩ := List.nodup_cons.mp distinct
      have others := inductionHypothesis distinct
      have untouched := frame.gap.stays _ _ (payload_storage frames store apart)
      rw [List.foldr_cons]
      generalize frames.foldr (fun frame store => frame.putBack store Value.none) store = rest
        at others untouched ⊢
      obtain ⟨payload, same, exchanged⟩ := frame.gap.exchange rest Value.none
      have given := exchanged c
      have written := count_slots_write c rest frame.storage payload
      have nothing : Value.none.handed = [] := rfl
      rw [untouched, nothing, List.count_nil] at given
      rw [same, Frame.owed_cons, List.count_append]
      omega

theorem count_containers (moment : Moment) (c : Addr) :
    (moment.tuples.flatMap Value.containers).count c =
      moment.session.named.handed.count c + moment.storage.slots.count c := by
  rw [tuples, Value.count_tuples_of_all, values, List.flatMap_append, List.count_append,
    List.flatMap_assoc]
  rfl

end Moment

/-! ## The account that turns keep -/

namespace Session

/-- No address has more slots than one, but for what places under change hold on credit. -/
structure Owns (session : Session) (frames : List Frame) : Prop where
  apart : (frames.map Frame.storage).Nodup
  slots : ∀ c, session.context.store.slots.count c + session.named.handed.count c ≤
    (Frame.owed frames session.context.store).count c +
      if c < session.context.store.size then 1 else 0

/-- The account of a session is what it affords with nothing in hand. -/
theorem affords_iff (session : Session) (debt : List Addr) :
    holding.Affords (Credit.none.more debt) session [] ↔
      ∀ c, session.context.store.slots.count c + session.named.handed.count c ≤
        debt.count c + if c < session.context.store.size then 1 else 0 := by
  unfold Holding.Affords
  rw [List.append_nil]
  exact affords_none_more

theorem owns_start (tracing : Bool) : Owns (start tracing) [] where
  apart := List.nodup_nil
  slots _ := Nat.zero_le _

section Turning

variable {session : Session} {frames : List Frame}

/-- What is lent out, and with it what stands on credit, stays over any work. -/
theorem owed_of_shelters (stands : session.Stands frames) (whole : session.context.store.Whole)
    {after : Store} (shelters : session.context.store.Shelters after) :
    Frame.owed frames after = Frame.owed frames session.context.store := by
  refine Frame.owed_congr fun frame member => ?_
  have lent : frame.storage ∈ session.context.store.lent := by
    rw [stands.lent]
    exact List.mem_map_of_mem member
  exact shelters.kept frame.storage lent (whole.lent frame.storage lent)

theorem Owns.step (owns : session.Owns frames) (stands : session.Stands frames)
    (whole : session.context.store.Whole) {step : Step} (collects : step.collectsNew = true) :
    (perform step session).2.Owns frames := by
  obtain ⟨sound, ⟨shelters, _⟩, _⟩ :=
    idles_perform step collects _ session ((affords_iff session _).mpr owns.slots)
  have still := owed_of_shelters stands whole shelters
  rw [← still] at sound
  exact ⟨owns.apart, (affords_iff _ _).mp sound⟩

/-- The value of a place moves into its slot, and its slots in storage stand on credit. -/
theorem Owns.enter (owns : session.Owns frames) (stands : session.Stands frames)
    (whole : session.context.store.Whole) {store : Store}
    (shelters : session.context.store.Shelters store)
    (afforded : ∀ credit hand, session.context.store.Affords credit hand →
      store.Affords credit hand)
    (frame : Frame) (free : frame.storage ∉ store.lent) :
    (session.enter frame (frame.read store) store).Owns (frame :: frames) := by
  constructor
  · rw [List.map_cons, List.nodup_cons]
    rw [shelters.lent, stands.lent] at free
    exact ⟨free, owns.apart⟩
  · intro c
    have account := affords_none_more.mp (afforded _ _ (affords_none_more.mpr owns.slots)) c
    have placed := Table.count_insert c session.named frame.slot (frame.read store)
    have here : frame.read (store.lend frame.storage) = frame.read store :=
      frame.gap.stays store _ rfl
    have lent : Frame.owed frames (store.lend frame.storage) = Frame.owed frames store :=
      Frame.owed_congr fun _ _ => rfl
    have others := lent.trans (owed_of_shelters stands whole shelters)
    show store.slots.count c + (session.named.insert frame.slot (frame.read store)).handed.count c ≤
      (Frame.owed (frame :: frames) (store.lend frame.storage)).count c +
        if c < store.size then 1 else 0
    rw [Frame.owed_cons, here, others, List.count_append]
    omega

/-- The value of a slot moves back into its place, and pays for what stood on credit. -/
theorem Owns.leave {frame : Frame} (owns : session.Owns (frame :: frames)) :
    (session.leave frame).Owns frames := by
  obtain ⟨apart, distinct⟩ := List.nodup_cons.mp owns.apart
  have account : session.context.store.regain.Affords
      ((Credit.none.more (Frame.owed frames session.context.store)).more
        (frame.read session.context.store).handed)
      (((session.named.get? frame.slot).getD Value.none).handed ++
        (session.named.erase frame.slot).handed) := by
    intro c
    have before := owns.slots c
    have removed := Table.count_erase c session.named frame.slot
    rw [Frame.owed_cons, List.count_append] at before
    show ((session.context.store.slots.count c + _ : Nat) : Int) ≤
      0 + (Frame.owed frames session.context.store).count c +
        (frame.read session.context.store).handed.count c +
          if c < session.context.store.size then 1 else 0
    rw [List.count_append]
    split at before <;> split <;> omega
  have paid := frame.gap.pay (fun c => Nat.le_refl _) account
  have others : Frame.owed frames (session.leave frame).context.store =
      Frame.owed frames session.context.store := by
    refine Frame.owed_congr fun outer member => frame.payload_putBack_of_ne _ _ ?_
    exact fun same => apart (same ▸ List.mem_map_of_mem member)
  rw [← others] at paid
  exact ⟨distinct, affords_none_more.mp paid⟩

end Turning

end Session

namespace Moment

theorem Turn.owns {before after : Moment}
    (turn : Turn (fun step => step.collectsNew = true) before after) (reached : before.Reached)
    (owns : before.session.Owns before.frames) : after.session.Owns after.frames := by
  have stands := Session.Reached.stands reached
  have whole := Session.Reached.whole reached
  cases turn with
  | step session frames collects => exact owns.step stands whole collects
  | clearLog session frames => exact ⟨owns.apart, owns.slots⟩
  | @enterItem session frames name a handle index position value found slot =>
      have entered := owns.enter stands whole (.refl _) (fun _ _ affords => affords)
        (.item a position slot) (item_free _ _ found)
      rwa [Frame.read, ← item_eq_ok found] at entered
  | @enterEntry session frames name a handle key owner value store found slot =>
      obtain ⟨shelters, afforded, free, rfl⟩ := entry_opens _ _ found
      exact owns.enter stands whole shelters afforded (.entry owner key slot) free
  | leave session frame frames => exact owns.leave

theorem Runs.owns {tracing : Bool} {moment : Moment}
    (run : Runs (fun step => step.collectsNew = true) ⟨Session.start tracing, []⟩ moment) :
    moment.session.Owns moment.frames := by
  induction run with
  | refl => exact Session.owns_start tracing
  | tail sofar turn inductionHypothesis =>
      exact turn.owns (Runs.reached sofar (Session.Reached.start tracing)) inductionHypothesis

theorem count_le_one {moment : Moment} (owns : moment.session.Owns moment.frames) (c : Addr) :
    (moment.tuples.flatMap Value.containers).count c ≤ 1 := by
  have account : moment.store.slots.count c + moment.session.named.handed.count c ≤
      (Frame.owed moment.frames moment.store).count c + if c < moment.store.size then 1 else 0 :=
    owns.slots c
  have given := count_slots_storage moment.store c owns.apart
  rw [count_containers, storage]
  split at account <;> omega

/--
However tuples are moved, copied and taken apart, as long as they are collected from new
values only: every list and every map is an element of one tuple at most, and once at most.
-/
theorem Runs.tuples_own {tracing : Bool} {moment : Moment}
    (run : Runs (fun step => step.collectsNew = true) ⟨Session.start tracing, []⟩ moment) :
    (∀ a, (moment.tuples.flatMap Value.containers).count a ≤ 1) ∧
      (∀ items ∈ moment.tuples, (Value.containers items).Nodup) ∧
        moment.tuples.Pairwise fun items others =>
          (Value.containers items).Disjoint (Value.containers others) := by
  have once := count_le_one run.owns
  have apart := List.nodup_flatMap.mp (List.nodup_iff_count_le_one.mpr once)
  exact ⟨once, apart.1, apart.2⟩

end Moment

/-- A tuple in a list, its copy with the list in it moved behind the map and copied again. -/
def Session.bundled : Session :=
  (Session.start false).run [
    .store "bundles" (.list [.tuple [.list [], .map .root []]]),
    .act "bundles" [] (.onList (.get (.whole 0))) { name := some "own" },
    .act "own" [] (.onTuple .pop) { name := some "first" },
    .act "own" [] (.onTuple (.push (.copy "first"))) {},
    .act "bundles" [] (.onList (.push (.take "own"))) {}]

/-- The element of the list that is changed in place is a tuple, and meanwhile in "slot". -/
theorem Moment.tuples_own_bundled :
    ∃ moment : Moment,
      Runs (fun step => step.collectsNew = true) ⟨Session.start false, []⟩ moment ∧
        moment.frames = [.item 2 0 "slot"] ∧
        moment.tuples.flatMap Value.containers = [0, 1, 4, 5] ∧
        (∀ a, (moment.tuples.flatMap Value.containers).count a ≤ 1) ∧
        (∀ items ∈ moment.tuples, (Value.containers items).Nodup) ∧
        moment.tuples.Pairwise fun items others =>
          (Value.containers items).Disjoint (Value.containers others) := by
  have steps : Runs (fun step => step.collectsNew = true) ⟨Session.start false, []⟩
      ⟨Session.bundled, []⟩ := .steps _ _ (by decide)
  have handle : Session.bundled.named.get? "bundles" = some (.list 2) := rfl
  have found : Session.bundled.context.store.item 2 (.whole 0) =
      .ok (0, .tuple [.list 0, .map 1]) := rfl
  have run := steps.tail (.enterItem [] handle found "slot")
  exact ⟨_, run, rfl, rfl, Runs.tuples_own run⟩

/-- Two tuples that are collected from one list do not own it. -/
example : (Moment.mk ((Session.start false).run [
    .store "shared" (.list []),
    .store "one" (.tuple [.copy "shared"]),
    .store "other" (.tuple [.copy "shared"])]) []).tuples.flatMap Value.containers = [0, 0] := rfl

end ScopedValues
