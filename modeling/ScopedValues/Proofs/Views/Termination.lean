import ScopedValues.Proofs.Copies.Termination
import ScopedValues.Proofs.Views.Faults
import ScopedValues.Proofs.Views.Rendering

/-!
Contract: which values can be walked and copied.

Owns the walks through elements and bindings that come to an end, and the verdict on all
the copies and walks of one storage.

Main statement: in every session that can come about, values without a cycle of payloads
that hand over to one another can be copied, and values without a cycle of elements and
bindings can be rendered and compared; outside all changes in place no other values can be
copied or rendered.
-/

set_option autoImplicit false

namespace ScopedValues

open Store

/-! ## Walks without a cycle -/

section Acyclic

variable {store : Store} {x y : Value}

/-- A comparison ends, if only at something lent out, when one of the values has no cycle. -/
theorem failsOnly_equal (typed : store.Typed) (acyclic : x.Acyclic store) (held : x.Held store)
    (heldToo : y.Held store) : FailsOnly (· = .conflict) (store.equal x y) := by
  have each : ∀ a b, (a < store.size ∧ LeadsToNoCycle store.Edge a) → b < store.size →
      FailsOnly (· = .conflict) (store.agree a b) := by
    rintro a b ⟨present, straight⟩
    refine straight.induction (fun _ _ _ edge => typed.edge_lt edge)
      (motive := fun a => ∀ b, b < store.size → FailsOnly (· = .conflict) (store.agree a b))
      ?_ present b
    intro a present inductionHypothesis b presentToo
    rw [agree_eq typed present presentToo]
    split
    · exact .ok true
    · refine (failsOnly_readPayload (failsOnly_free store a)).bind fun left leftRead => ?_
      refine (failsOnly_readPayload (failsOnly_free store b)).bind fun right rightRead => ?_
      refine Payload.failsOnly_equalBy
        (fun c d edge present => inductionHypothesis c edge d present)
        (within_edge leftRead) fun value member c named => ?_
      exact typed.edge_lt (within_edge rightRead value member c named)
  exact Value.failsOnly_equalBy each (fun a named => ⟨held.within a named, acyclic a named⟩) y
    heldToo.within

/-- Following the addresses of a value without a cycle ends, if only at something lent out. -/
theorem failsOnly_unfold {ν : Type} {note : Note ν} (typed : store.Typed)
    (notes : ∀ a inner, FailsOnly (· = .conflict) (note a inner)) (acyclic : x.Acyclic store)
    (held : x.Held store) : FailsOnly (· = .conflict) (store.unfold note x) := by
  have inside : x.Within fun a => a < store.size ∧ LeadsToNoCycle store.Edge a :=
    fun a named => ⟨held.within a named, acyclic a named⟩
  refine Value.failsOnly_unfoldBy ?_ x inside
  rintro a ⟨present, straight⟩
  refine straight.induction (fun _ _ _ edge => typed.edge_lt edge)
    (motive := fun a => FailsOnly (· = .conflict) (store.followWithin note (store.size + 1) a))
    ?_ present
  intro a present inductionHypothesis
  rw [followWithin_size_eq typed note present]
  refine (failsOnly_readPayload (failsOnly_free store a)).bind fun payload read => ?_
  exact failsOnly_followPayload notes inductionHypothesis a (within_edge read)

end Acyclic

/-! ## Walks that come to an answer -/

section Answers

variable {α β : Type}

theorem mapM_ok_iff {work : α → Except Fault β} {items : List α} :
    (∃ results, items.mapM work = .ok results) ↔ ∀ x ∈ items, ∃ result, work x = .ok result := by
  induction items with
  | nil => exact iff_of_true ⟨[], rfl⟩ (by simp)
  | cons x rest inductionHypothesis =>
      rw [List.forall_mem_cons, ← inductionHypothesis, List.mapM_cons]
      constructor
      · rintro ⟨results, done⟩
        obtain ⟨first, worked, done⟩ := bind_eq_ok done
        obtain ⟨others, workedToo, _⟩ := bind_eq_ok done
        exact ⟨⟨first, worked⟩, others, workedToo⟩
      · rintro ⟨⟨first, worked⟩, others, workedToo⟩
        rw [worked, workedToo]
        exact ⟨_, rfl⟩

theorem map_ok_iff {outcome : Except Fault α} (finish : α → β) :
    (∃ result, (do return finish (← outcome) : Except Fault β) = .ok result) ↔
      ∃ result, outcome = .ok result := by
  cases outcome with
  | error fault => exact iff_of_false (by rintro ⟨_, impossible⟩; cases impossible) (by simp)
  | ok x => exact iff_of_true ⟨_, rfl⟩ ⟨x, rfl⟩

end Answers

section Following

variable {ν : Type} {note : Note ν} {follow : Addr → Except Fault (Tree ν)} {store : Store}

theorem Value.unfoldBy_ok_iff {value : Value} :
    (∃ tree, value.unfoldBy follow = .ok tree) ↔
      value.Within fun a => ∃ tree, follow a = .ok tree := by
  induction value with
  | scalar x => exact iff_of_true ⟨_, rfl⟩ (by simp)
  | tuple items inductionHypothesis =>
      rw [within_tuple, unfoldBy, unfoldAllBy_eq_mapM, map_ok_iff, mapM_ok_iff]
      exact forall₂_congr inductionHypothesis
  | list a => rw [within_list, unfoldBy]
  | map a => rw [within_map, unfoldBy]

theorem Store.followPayload_ok_iff (notes : ∀ a inner, ∃ noted, note a inner = .ok noted) (a : Addr)
    {payload : Payload} :
    (∃ tree, followPayload note follow a payload = .ok tree) ↔
      ∀ value ∈ payload.values, value.Within fun b => ∃ tree, follow b = .ok tree := by
  cases payload with
  | list items =>
      rw [followPayload, Value.unfoldAllBy_eq_mapM, map_ok_iff, mapM_ok_iff]
      exact forall₂_congr fun item _ => Value.unfoldBy_ok_iff
  | scope inner =>
      obtain ⟨noted, ok⟩ := notes a inner
      have entries : (∃ tree, followPayload note follow a (.scope inner) = .ok tree) ↔
          ∃ trees, Value.unfoldEntriesBy follow inner.bindings.entries = .ok trees := by
        rw [followPayload, ok]
        exact map_ok_iff (Tree.map noted)
      rw [entries, Value.unfoldEntriesBy_eq_mapM, mapM_ok_iff, Payload.values, List.forall_mem_map]
      refine forall₂_congr fun entry _ => ?_
      rw [map_ok_iff, Value.unfoldBy_ok_iff]

theorem Store.followWithin_succ_ok_iff (notes : ∀ a inner, ∃ noted, note a inner = .ok noted)
    {fuel : Nat} {a : Addr} :
    (∃ tree, store.followWithin note (fuel + 1) a = .ok tree) ↔
      a ∉ store.lent ∧
        ∀ b, store.Edge a b → ∃ tree, store.followWithin note fuel b = .ok tree := by
  rw [followWithin_succ]
  by_cases lent : a ∈ store.lent
  · have conflict : store.readPayload a = .error .conflict := by
      simp [readPayload, free, lent, bind, Except.bind]
    rw [conflict]
    exact iff_of_false (by rintro ⟨_, impossible⟩; cases impossible) fun both => both.1 lent
  · obtain ⟨payload, read⟩ : ∃ payload, store.readPayload a = .ok payload := by
      rw [readPayload, (free_eq_ok_iff store a).mpr lent]
      exact ⟨_, rfl⟩
    rw [read]
    refine (followPayload_ok_iff notes a).trans ?_
    rw [values_of_readPayload read]
    refine ⟨fun each => ⟨lent, ?_⟩, fun both value member b named => ?_⟩
    · rintro b ⟨value, member, named⟩
      exact each value member b named
    · exact both.2 b ⟨value, member, named⟩

theorem Store.walk_follow (notes : ∀ a inner, ∃ noted, note a inner = .ok noted)
    (store : Store) :
    Walk store.Edge (· ∉ store.lent) fun fuel a =>
      ∃ tree, store.followWithin note fuel a = .ok tree where
  start _ impossible := by
    obtain ⟨_, impossible⟩ := impossible
    cases impossible
  go _ _ := followWithin_succ_ok_iff notes

/-- A walk through a value comes to an answer, with whatever fuel, exactly if it meets no cycle
of elements and bindings and nothing that is lent out. -/
theorem Value.Held.unfold_ok_iff {value : Value} (held : value.Held store) (typed : store.Typed)
    (notes : ∀ a inner, ∃ noted, note a inner = .ok noted) :
    (∃ tree, store.unfold note value = .ok tree) ↔
      value.Acyclic store ∧ value.Within fun a => ∀ b, store.Reaches a b → b ∉ store.lent := by
  have walk := walk_follow notes store
  have each : ∀ a ∈ value.addresses,
      ((∃ tree, store.followWithin note (store.size + 1) a = .ok tree) ↔
        LeadsToNoCycle store.Edge a ∧ ∀ b, store.Reaches a b → b ∉ store.lent) := by
    intro a named
    rw [← walk.exists_done_iff (fun _ _ _ edge => typed.edge_lt edge) (held.within a named)]
    refine ⟨fun done => ⟨_, done⟩, ?_⟩
    rintro ⟨fuel, done⟩
    -- More fuel does no harm, and beyond the size of storage it makes no difference.
    obtain ⟨tree, followed⟩ := walk.mono (Nat.le_max_left fuel store.size) done
    refine ⟨tree, ?_⟩
    rw [← followed]
    exact followWithin_eq_of_size_le (fun _ inside => inside) typed.closed note
      (Nat.le_succ store.size) (Nat.le_max_right fuel store.size) a (held.within a named)
  rw [unfold, Value.unfoldBy_ok_iff]
  refine ⟨fun within => ?_, fun both a named => (each a named).mpr ⟨both.1 a named, both.2 a named⟩⟩
  exact ⟨fun a named => ((each a named).mp (within a named)).1,
    fun a named => ((each a named).mp (within a named)).2⟩

/-- Where nothing is lent out, a walk through a value ends exactly if it meets no cycle. -/
theorem Value.Held.terminates_unfold_iff {value : Value} (held : value.Held store)
    (typed : store.Typed) (idle : store.lent = [])
    (notes : ∀ a inner, ∃ noted, note a inner = .ok noted) :
    Terminates (fun fuel => value.unfoldBy (store.followWithin note fuel)) ↔
      value.Acyclic store := by
  have noted : ∀ a inner, FailsOnly (· = .endless) (note a inner) := by
    intro a inner
    obtain ⟨noted, ok⟩ := notes a inner
    rw [ok]
    exact .ok noted
  have fails : ∀ fuel,
      FailsOnly (· = .endless) (value.unfoldBy (store.followWithin note fuel)) := by
    intro fuel
    have each : ∀ a, FailsOnly (· = .endless) (store.followWithin note fuel a) := by
      refine failsOnly_followWithin (unfailing_free idle) ?_ noted fuel
      rfl
    exact failsOnly_unfoldBy (fun a _ => each a) value value.within_anywhere
  rw [FailsOnly.terminates_iff fails]
  constructor
  · rintro ⟨fuel, done⟩ a named
    exact (walk_follow notes store).leadsToNoCycle (unfoldBy_ok_iff.mp done a named)
  · intro acyclic
    have free : value.Within fun a => ∀ b, store.Reaches a b → b ∉ store.lent := by
      intro a _ b _
      simp [idle]
    exact ⟨_, (held.unfold_ok_iff typed notes).mpr ⟨acyclic, free⟩⟩

end Following

/-! ## A scope that binds its child -/

section Child

variable {store : Store} {a : Addr} {key : String}

/-- The storage after a child of the scope at `a` has been made and bound in that scope. -/
def Store.withOwnChild (store : Store) (a : Addr) (key : String) : Store :=
  (store.newChild a).2.setEntry a key (.map (store.newChild a).1)

theorem develops_withOwnChild (sound : store.Sound) (isScope : store.IsScope a) :
    store.Develops (store.withOwnChild a key) := by
  obtain ⟨entered, child, _⟩ := keeps_newChild sound isScope _ _ rfl
  have there := entered.grows.scopes a isScope
  exact entered.trans
    (develops_setEntry entered.sound there key ((Value.held_map _ _).mpr child))

/-- The new child is named by nothing but its parent, and names nothing. -/
theorem edge_withOwnChild (isScope : store.IsScope a) {p q : Addr}
    (edge : (store.withOwnChild a key).Edge p q) :
    p ≠ store.size ∧ (q ≠ store.size → store.Edge p q) := by
  obtain ⟨value, stored, named⟩ := edge
  have old := isScope.lt_size
  have entered : (store.newChild a).2.scope a = store.scope a :=
    scope_allocate_of_lt store _ a old
  have present : a < (store.newChild a).2.size := by
    rw [newChild, size_allocate]
    exact Nat.lt_succ_of_lt old
  by_cases same : p = a
  · subst same
    refine ⟨Nat.ne_of_lt old, fun other => ?_⟩
    rw [withOwnChild, setEntry, values_of_payload (payload_setBindings_self _ p _ present)]
      at stored
    obtain ⟨entry, member, rfl⟩ := List.mem_map.mp stored
    rcases Table.mem_insert member with rfl | before
    · exact absurd (List.mem_singleton.mp named) other
    · rw [entered] at before
      exact ⟨entry.2, mem_values_of_mem_bindings before, named⟩
  · rw [withOwnChild, setEntry, values_eq_of_payload (payload_setBindings_of_ne _ a p _ same)]
      at stored
    rcases payload_allocate_cases store (.scope ⟨Table.empty, some a⟩) p with kept | ⟨_, made⟩
    · rw [newChild, values_eq_of_payload kept] at stored
      refine ⟨?_, fun _ => ⟨value, stored, named⟩⟩
      rintro rfl
      have beyond : store.payloads[store.size]? = none := Array.getElem?_eq_none (Nat.le_refl _)
      rw [values, beyond] at stored
      cases stored
    · rw [newChild, values_of_payload made] at stored
      cases stored

/-- Steps that do not end at the new child are steps of the storage before it. -/
theorem reaches_withOwnChild (isScope : store.IsScope a) {p q : Addr}
    (reached : (store.withOwnChild a key).Reaches p q) (other : q ≠ store.size) :
    store.Reaches p q := by
  induction reached with
  | refl => exact .refl
  | tail _ edge inductionHypothesis =>
      obtain ⟨before, kept⟩ := edge_withOwnChild isScope edge
      exact (inductionHypothesis before).tail (kept other)

/-- Binding its own child gives no scope a cycle. -/
theorem acyclic_withOwnChild (isScope : store.IsScope a) {x : Value}
    (acyclic : ∀ b ∈ x.addresses, b = store.size ∨ LeadsToNoCycle store.Edge b) :
    x.Acyclic (store.withOwnChild a key) := by
  intro b named c reached cycle
  -- The new child names nothing, so it is on no cycle, and a cycle of the others was there before.
  obtain ⟨first, edge, back⟩ := Relation.TransGen.head'_iff.mp cycle
  have notChild : c ≠ store.size := (edge_withOwnChild isScope edge).1
  obtain ⟨last, led, edgeBack⟩ := Relation.TransGen.tail'_iff.mp cycle
  have before := edge_withOwnChild isScope edgeBack
  have oldCycle : Relation.TransGen store.Edge c c :=
    Relation.TransGen.tail' (reaches_withOwnChild isScope led before.1) (before.2 notChild)
  rcases acyclic b named with rfl | straight
  · rcases Relation.ReflTransGen.cases_head reached with rfl | ⟨next, impossible, _⟩
    · exact notChild rfl
    · exact (edge_withOwnChild isScope impossible).1 rfl
  · exact straight c (reaches_withOwnChild isScope reached notChild) oldCycle

theorem insert_ownChild (idle : store.lent = []) (a : Addr) (key : String) :
    ∃ old, (store.newChild a).2.insert a key (.map (store.newChild a).1) =
      .ok (old, store.withOwnChild a key) := by
  have stillIdle : (store.newChild a).2.lent = [] := idle
  have read := bindings_of_nothing_lent stillIdle a
  refine ⟨((store.newChild a).2.scope a).bindings.get? key, ?_⟩
  rw [Store.insert, read]
  rfl

end Child

/-! ## What ends -/

/-- Cycles that elements and bindings lead to have no tuple on their way. -/
def Value.CyclesByHandles (store : Store) (value : Value) : Prop :=
  ∀ a ∈ value.addresses, ∀ p q, store.Reaches a p → store.HandsOver p q → ¬ store.Reaches q p

/-- What can be copied and walked for want of a cycle, also while storage is lent out. -/
structure Store.EndsWithoutCycles (store : Store) : Prop where
  copies : ∀ (mode : CopyMode) (value : Value), value.Held store →
    mode.MeetsNoCycle store value → Terminates (mode.attempt store value)
  /-- A list or map that contains itself through handles can be copied in either way. -/
  handles : ∀ (mode : CopyMode) (value : Value), value.Held store →
    value.CyclesByHandles store → Terminates (mode.attempt store value)
  rendering : ∀ {ν : Type} (note : Note ν), (∀ a inner, ∃ noted, note a inner = .ok noted) →
    ∀ value : Value, value.Held store → value.Acyclic store →
      Terminates fun fuel => value.unfoldBy (store.followWithin note fuel)
  equality : ∀ x y : Value, x.Held store → y.Held store → x.Acyclic store →
    Terminates fun fuel => x.equalBy (store.agreeWithin fuel) y

/-- What can be copied and walked, and what comes of it. -/
structure Store.EndsOnlyWithoutCycles (store : Store) : Prop where
  deepCopy : ∀ value : Value, value.Held store →
    (Terminates (CopyMode.deep.attempt store value) ↔
      ∀ a ∈ value.addresses, LeadsToNoCycle store.HandsOver a)
  plainCopy : ∀ value : Value, value.Held store →
    (Terminates (CopyMode.plain.attempt store value) ↔
      (∀ items, value ≠ .tuple items) ∨ Terminates (CopyMode.deep.attempt store value))
  /-- A copy that ends is made. -/
  copied : ∀ (mode : CopyMode) (value : Value), value.Held store →
    (Terminates (mode.attempt store value) ↔ ∃ result, mode.run store value = .ok result)
  rendering : ∀ {ν : Type} (note : Note ν), (∀ a inner, ∃ noted, note a inner = .ok noted) →
    ∀ value : Value, value.Held store →
      (Terminates (fun fuel => value.unfoldBy (store.followWithin note fuel)) ↔
        ∀ a ∈ value.addresses, LeadsToNoCycle store.Edge a)
  /-- A rendering that ends is a text. -/
  rendered : ∀ value : Value, value.Held store →
    ((∃ text, store.text value = .ok text) ↔ value.Acyclic store)
  compared : ∀ x y : Value, x.Held store → y.Held store → x.Acyclic store → y.Acyclic store →
    ∃ answer, store.equal x y = .ok answer
  /-- A scope that binds a child of its own is rendered and compared as before. -/
  child : ∀ (a : Addr) (key : String), store.IsScope a → (Value.map a).Acyclic store →
    ∃ old after,
      (store.newChild a).2.insert a key (.map (store.newChild a).1) = .ok (old, after) ∧
        ∀ x ∈ [Value.map a, .map (store.newChild a).1],
          (∃ text, after.text x = .ok text) ∧
            ∀ y ∈ [Value.map a, .map (store.newChild a).1], ∃ answer, after.equal x y = .ok answer

theorem Store.Sound.endsWithoutCycles {store : Store} (sound : store.Sound) :
    store.EndsWithoutCycles where
  copies mode value held straight :=
    CopyMode.terminates_of_meetsNoCycle sound.toTyped held straight
  handles mode value held direct :=
    CopyMode.terminates_of_meetsNoCycle sound.toTyped held
      (CopyMode.meetsNoCycle_of_direct direct mode)
  rendering note notes value held acyclic := by
    have noted : ∀ a inner, FailsOnly (· = .conflict) (note a inner) := by
      intro a inner
      obtain ⟨noted, ok⟩ := notes a inner
      rw [ok]
      exact .ok noted
    refine ⟨store.size + 1, fun endless => ?_⟩
    cases failsOnly_unfold sound.toTyped noted acyclic held _ endless
  equality x y held heldToo acyclic := by
    refine ⟨store.size * store.size + 1, fun endless => ?_⟩
    cases failsOnly_equal sound.toTyped acyclic held heldToo _ endless

section Idle

variable {store : Store}

theorem text_ok_iff (sound : store.Sound) (idle : store.lent = []) {value : Value}
    (held : value.Held store) :
    (∃ text, store.text value = .ok text) ↔ value.Acyclic store := by
  constructor
  · rintro ⟨text, written⟩
    obtain ⟨tree, unfolded, _⟩ := text_eq_ok_iff.mp written
    have notes : ∀ (a : Addr) (inner : Scope), ∃ noted, noteParent a inner = .ok noted :=
      fun _ inner => ⟨inner.parent, rfl⟩
    exact ((held.unfold_ok_iff sound.toTyped notes).mp ⟨tree, unfolded⟩).1
  · intro acyclic
    exact ⟨_, (acyclic.ends sound.toTyped idle held).text_eq sound.toTyped⟩

theorem equal_ok (sound : store.Sound) (idle : store.lent = []) {x y : Value}
    (held : x.Held store) (heldToo : y.Held store) (acyclic : x.Acyclic store)
    (acyclicToo : y.Acyclic store) : ∃ answer, store.equal x y = .ok answer := by
  have ends := acyclic.ends sound.toTyped idle held
  obtain ⟨answer, ok, _⟩ :=
    ends.decides_equal sound (acyclicToo.ends sound.toTyped idle heldToo)
  exact ⟨answer, ok⟩

theorem Store.Sound.endsOnlyWithoutCycles (sound : store.Sound) (idle : store.lent = []) :
    store.EndsOnlyWithoutCycles where
  deepCopy value held := (CopyMode.terminates_iff sound.toTyped idle held .deep).1
  plainCopy value held := by
    rw [(CopyMode.terminates_iff sound.toTyped idle held .plain).1,
      (CopyMode.terminates_iff sound.toTyped idle held .deep).1]
    exact CopyMode.meetsNoCycle_plain_iff store value
  copied mode value held := (CopyMode.terminates_iff sound.toTyped idle held mode).2
  rendering note notes value held := held.terminates_unfold_iff sound.toTyped idle notes
  rendered value held := text_ok_iff sound idle held
  compared x y held heldToo acyclic acyclicToo :=
    equal_ok sound idle held heldToo acyclic acyclicToo
  child a key isScope acyclic := by
    obtain ⟨old, inserted⟩ := insert_ownChild idle a key
    have develops : store.Develops (store.withOwnChild a key) := develops_withOwnChild sound isScope
    have stillIdle : (store.withOwnChild a key).lent = [] := develops.grows.lent.trans idle
    have child : (store.newChild a).2.IsScope (store.newChild a).1 :=
      ⟨_, payload_allocate_self store _⟩
    have entered := (grows_allocate store (.scope ⟨Table.empty, some a⟩)).scopes a isScope
    have held : ∀ x ∈ [Value.map a, .map (store.newChild a).1],
        x.Held (store.withOwnChild a key) := by
      intro x member
      rcases List.mem_pair.mp member with rfl | rfl
      · exact (Value.held_map _ a).mpr (develops.grows.scopes a isScope)
      · exact (Value.held_map _ _).mpr ((grows_setBindings entered _).scopes _ child)
    have straight : ∀ x ∈ [Value.map a, .map (store.newChild a).1],
        x.Acyclic (store.withOwnChild a key) := by
      intro x member
      refine acyclic_withOwnChild isScope fun b named => ?_
      rcases List.mem_pair.mp member with rfl | rfl
      · exact Or.inr (acyclic b named)
      · exact Or.inl (List.mem_singleton.mp named)
    refine ⟨old, _, inserted, fun x member => ⟨?_, fun y memberToo => ?_⟩⟩
    · exact (text_ok_iff develops.sound stillIdle (held x member)).mpr (straight x member)
    · exact equal_ok develops.sound stillIdle (held x member) (held y memberToo)
        (straight x member) (straight y memberToo)

end Idle

namespace Session

/-- In a session that can come about, whatever leads to no cycle can be copied, rendered and
compared; and outside all changes in place nothing else can be copied or rendered. -/
theorem Reached.termination {session : Session} {frames : List Frame}
    (reached : Reached session frames) :
    session.context.store.EndsWithoutCycles ∧
      (frames = [] → session.context.store.EndsOnlyWithoutCycles) := by
  have sound := reached.stands.sound.context.store
  refine ⟨sound.endsWithoutCycles, fun none => sound.endsOnlyWithoutCycles ?_⟩
  rw [reached.stands.lent, none, List.map_nil]

/-- A list that contains itself, and another one that contains itself in a tuple. -/
def selfContained : Session :=
  (start false).run [
    .store "direct" (.list []),
    .act "direct" [] (.onList (.push (.copy "direct"))) {},
    .store "bundled" (.list []),
    .act "bundled" [] (.onList (.push (.tuple [.copy "bundled"]))) {}]

theorem reachable_selfContained : selfContained.Reachable :=
  (Reached.start false).run _

theorem termination_selfContained :
    selfContained.Reachable ∧
      Terminates (CopyMode.deep.attempt selfContained.context.store (.list 0)) ∧
      ¬ Terminates (CopyMode.deep.attempt selfContained.context.store (.list 1)) ∧
      ¬ Terminates (CopyMode.plain.attempt selfContained.context.store (.tuple [.list 1])) ∧
      ¬ ∃ text, selfContained.context.store.text (.list 0) = .ok text := by
  have ends := (Reached.termination reachable_selfContained).2 rfl
  have direct : (Value.list 0).Held selfContained.context.store :=
    (Value.held_list _ _).mpr ⟨_, rfl⟩
  have bundled : (Value.list 1).Held selfContained.context.store :=
    (Value.held_list _ _).mpr ⟨_, rfl⟩
  have hands : selfContained.context.store.HandsOver 1 1 := List.mem_singleton_self 1
  have endless : ¬ Terminates (CopyMode.deep.attempt selfContained.context.store (.list 1)) := by
    intro copied
    exact (ends.deepCopy _ bundled).mp copied 1 (by simp) 1 .refl (.single hands)
  refine ⟨reachable_selfContained, ?_, endless, ?_, ?_⟩
  · refine (ends.deepCopy _ direct).mpr fun a named b led cycle => ?_
    obtain rfl := List.mem_singleton.mp named
    have nothing : ∀ b, ¬ selfContained.context.store.HandsOver 0 b := by
      intro b impossible
      cases impossible
    rcases Relation.ReflTransGen.cases_head led with rfl | ⟨next, impossible, _⟩
    · obtain ⟨next, impossible, _⟩ := Relation.TransGen.head'_iff.mp cycle
      exact nothing next impossible
    · exact nothing next impossible
  · intro copied
    have held : (Value.tuple [.list 1]).Held selfContained.context.store :=
      (Value.held_tuple _ _).mpr (by simpa using bundled)
    rcases (ends.plainCopy _ held).mp copied with single | copied
    · exact single _ rfl
    · exact (ends.deepCopy _ held).mp copied 1 (by simp) 1 .refl (.single hands)
  · intro written
    have edge : selfContained.context.store.Edge 0 0 :=
      ⟨.list 0, List.mem_singleton_self _, List.mem_singleton_self 0⟩
    exact (ends.rendered _ direct).mp written 0 (by simp) 0 .refl (.single edge)

end Session

end ScopedValues
