import ScopedValues.Proofs.Isolation.Runs
import ScopedValues.Proofs.Sessions.Reachable

/-!
Contract: copies and the storage they are made of, over whole runs of writes.

Owns the operations that copy, and what a copy leads to.

Main statement: in every session that can come about, writes to what a copy allocated
show through nothing that was there before; and writes to a list or map that does not
lead to itself do not show through its copy.
-/

set_option autoImplicit false

namespace ScopedValues

open Store

/-! ## Operations that copy -/

inductive Copying where
  /-- The plain copy, in which every tuple has storage of its own. -/
  | copy (value : Value)
  /-- The deep copy, as it is also appended to a tuple. -/
  | deepCopy (value : Value)
  /-- The deep copy of a list or map. -/
  | detach (a : Addr)
  /-- The deep copies that a tuple is made of. -/
  | deepCopyAll (values : List Value)
  | listOfTuple (value : Value)

namespace Copying

/-- The storage that copying leaves. -/
def run (store : Store) : Copying → Except Fault Store
  | .copy value => (store.copy value).map Prod.snd
  | .deepCopy value => (store.deepCopy value).map Prod.snd
  | .detach a => (store.detach a).map Prod.snd
  | .deepCopyAll values => (store.deepCopyAll values).map Prod.snd
  | .listOfTuple value => (store.listOfTuple value).map Prod.snd

/-- What is copied is there. -/
def Fits (store : Store) : Copying → Prop
  | .copy value => value.Held store
  | .deepCopy value => value.Held store
  | .detach a => store.IsList a ∨ store.IsScope a
  | .deepCopyAll values => ∀ value ∈ values, value.Held store
  | .listOfTuple value => value.Held store

variable {store after : Store}

theorem map_snd_eq_ok {α : Type} {outcome : Except Fault (α × Store)}
    (done : outcome.map Prod.snd = .ok after) : ∃ x, outcome = .ok (x, after) := by
  cases outcome with
  | error fault => cases done
  | ok made =>
      obtain ⟨x, last⟩ := made
      cases done
      exact ⟨x, rfl⟩

theorem run_mode (sound : store.Sound) (mode : CopyMode) {value copy : Value}
    (held : value.Held store) (ran : mode.run store value = .ok (copy, after)) :
    after.Sound ∧ store.Extends after := by
  have renewal := (CopyMode.run_ok sound.toTyped held mode ran).1
  exact ⟨renewal.sound sound, renewal.extension⟩

theorem run_deepCopyAll (sound : store.Sound) {values copies : List Value}
    (held : ∀ value ∈ values, value.Held store)
    (done : store.deepCopyAll values = .ok (copies, after)) :
    after.Sound ∧ store.Extends after := by
  have whole : CopyMode.deep.run store (.tuple values) = .ok (.tuple copies, after) := by
    change store.deepCopy (.tuple values) = _
    rw [deepCopy_tuple, done]
    rfl
  exact run_mode sound .deep ((Value.held_tuple store values).mpr held) whole

theorem run_listOfTuple (sound : store.Sound) {value : Value} {made : Addr}
    (held : value.Held store) (done : store.listOfTuple value = .ok (made, after)) :
    after.Sound ∧ store.Extends after := by
  have soundAfter := (keeps_listOfTuple sound held made after done).1.sound
  refine ⟨soundAfter, ?_⟩
  cases value with
  | tuple items =>
      obtain ⟨⟨copies, middle⟩, copied, done⟩ := bind_eq_ok done
      cases done
      have first := run_deepCopyAll sound ((Value.held_tuple store items).mp held) copied
      exact first.2.trans (extends_allocate middle (.list copies))
  | scalar x => cases done
  | list b => cases done
  | map b => cases done

/-- Copying only adds to storage. -/
theorem run_extends (sound : store.Sound) {copying : Copying} (fits : copying.Fits store)
    (done : copying.run store = .ok after) : after.Sound ∧ store.Extends after := by
  cases copying with
  | copy value =>
      obtain ⟨made, ran⟩ := map_snd_eq_ok done
      exact run_mode sound .plain fits ran
  | deepCopy value =>
      obtain ⟨made, ran⟩ := map_snd_eq_ok done
      exact run_mode sound .deep fits ran
  | detach a =>
      obtain ⟨made, ran⟩ := map_snd_eq_ok done
      obtain ⟨value, copy, held, _, _, ran⟩ := detach_eq_ok fits ran
      exact run_mode sound .deep held ran
  | deepCopyAll values =>
      obtain ⟨made, ran⟩ := map_snd_eq_ok done
      exact run_deepCopyAll sound fits ran
  | listOfTuple value =>
      obtain ⟨made, ran⟩ := map_snd_eq_ok done
      exact run_listOfTuple sound fits ran

theorem run_preserves (whole : store.Whole) {copying : Copying} (fits : copying.Fits store)
    (done : copying.run store = .ok after) : Preserves (· < store.size) store after := by
  obtain ⟨sound, extension⟩ := run_extends whole.toSound fits done
  have apart : ∀ a, a < store.size → ¬ False := fun _ _ => not_false
  exact (Part.all whole).preserves_spared apart sound extension.spares

end Copying

/-! ## What a copy leads to -/

section Reaches

variable {before after : Store} {part : Addr → Prop}

/-- What the fresh storage at `a` leads to, besides itself, its elements lead to. -/
theorem reaches_of_values {a : Addr} {values : List Value} (stored : after.values a = values)
    (each : ∀ value ∈ values, ∀ b ∈ value.addresses, ∀ c, after.Reaches b c →
      before.size ≤ c ∨ part c) (fresh : before.size ≤ a) :
    ∀ c, after.Reaches a c → before.size ≤ c ∨ part c := by
  intro c reached
  rcases Relation.ReflTransGen.cases_head reached with rfl | ⟨b, ⟨value, member, named⟩, onward⟩
  · exact Or.inl fresh
  · exact each value (stored ▸ member) b named c onward

mutual

/--
A copy leads to storage of its own and to what the contents of its source lead to; to
what its source names itself only where it shares it.
-/
theorem Copied.reaches (view : Agree part before after) :
    ∀ {mode : CopyMode} {value copy : Value}, Copied before after mode value copy →
      (∀ a ∈ value.addresses, ∀ b, before.Edge a b → part b) →
      (mode = .plain → value.Within part) →
        ∀ a ∈ copy.addresses, ∀ b, after.Reaches a b → before.size ≤ b ∨ part b
  | _, _, _, .scalar _ _, _, _ => by simp [Value.addresses_scalar]
  | _, _, _, .tuple elements, edges, _ => by
      simp only [Value.addresses_tuple, List.mem_flatMap] at edges ⊢
      intro a kept
      rcases kept with ⟨copy, member, named⟩
      refine elements.reaches view (fun item inside a mentioned => ?_) (by simp) copy member a named
      exact edges a ⟨item, inside, mentioned⟩
  | _, _, _, .sharedList a, _, shared => by
      simp only [Value.addresses_list, List.mem_singleton]
      intro _ same b reached
      subst same
      exact Or.inr (view.closedAfter.reaches (shared rfl _ (by simp)) reached)
  | _, _, _, .sharedMap a, _, shared => by
      simp only [Value.addresses_map, List.mem_singleton]
      intro _ same b reached
      subst same
      exact Or.inr (view.closedAfter.reaches (shared rfl _ (by simp)) reached)
  | _, _, _, @Copied.freshList _ _ a b items copies _ source made fresh elements, edges, _ => by
      have within : ∀ item ∈ items, item.Within part := fun item member c named =>
        edges a (by simp) c ⟨item, by rwa [values_of_payload source], named⟩
      simp only [Value.addresses_list, List.mem_singleton]
      intro _ same
      subst same
      apply reaches_of_values (values_of_payload made) _ fresh
      exact elements.reaches view
        (fun item member c named => view.closed c (within item member c named))
        fun _ => within
  | _, _, _, @Copied.freshMap _ _ a b inner copy _ source made fresh _ _ elements, edges, _ => by
      have within : ∀ value ∈ inner.bindings.entries.map Prod.snd, value.Within part :=
        fun value member c named =>
          edges a (by simp) c ⟨value, by rwa [values_of_payload source], named⟩
      simp only [Value.addresses_map, List.mem_singleton]
      intro _ same
      subst same
      apply reaches_of_values (values_of_payload made) _ fresh
      exact elements.reaches view
        (fun value member c named => view.closed c (within value member c named))
        fun _ => within

theorem CopiedAll.reaches (view : Agree part before after) :
    ∀ {mode : CopyMode} {items copies : List Value}, CopiedAll before after mode items copies →
      (∀ item ∈ items, ∀ a ∈ item.addresses, ∀ b, before.Edge a b → part b) →
      (mode = .plain → ∀ item ∈ items, item.Within part) →
        ∀ copy ∈ copies, ∀ a ∈ copy.addresses, ∀ b, after.Reaches a b →
          before.size ≤ b ∨ part b
  | _, _, _, .nil _, _, _ => by simp
  | _, _, _, .cons head rest, edges, shared => by
      simp only [List.forall_mem_cons] at edges shared ⊢
      exact ⟨head.reaches view edges.1 fun plain => (shared plain).1,
        rest.reaches view edges.2 fun plain => (shared plain).2⟩

end

/-- The copy of a list or map that does not lead to itself does not lead back to it. -/
theorem detach_reaches (sound : before.Sound) {a b : Addr}
    (kind : before.IsList a ∨ before.IsScope a) (single : ¬ before.ReachesItself a)
    (done : before.detach a = .ok (b, after)) {c : Addr} (reached : after.Reaches b c) :
    c ≠ a ∧ c < after.size := by
  obtain ⟨value, copy, held, named, namedCopy, ran⟩ := detach_eq_ok kind done
  obtain ⟨renewal, copied⟩ := CopyMode.run_ok sound.toTyped held .deep ran
  have extension := renewal.extension
  have onwardPresent : ∀ d, Relation.TransGen before.Edge a d → d < before.size := by
    intro d onward
    obtain ⟨_, _, edge⟩ := Relation.TransGen.tail'_iff.mp onward
    exact sound.edge_lt edge
  have view : Agree (Relation.TransGen before.Edge a) before after :=
    (extension.agree sound.toTyped).restrict onwardPresent fun _ onward _ edge => onward.tail edge
  have edges : ∀ d ∈ value.addresses, ∀ e, before.Edge d e →
      Relation.TransGen before.Edge a e := by
    intro d mentioned e edge
    rw [named, List.mem_singleton] at mentioned
    exact .single (mentioned ▸ edge)
  have present : a < before.size := held.within a (by simp [named])
  have presentCopy : b < after.size :=
    (copied.held extension held).within b (by simp [namedCopy])
  refine ⟨?_, (renewal.sound sound).closed.reaches presentCopy reached⟩
  intro same
  subst same
  rcases copied.reaches view edges (by simp) b (by simp [namedCopy]) c reached with fresh | onward
  · exact Nat.not_lt_of_ge fresh present
  · exact single onward

end Reaches

/-! ## Isolation -/

/-- Of a copy and its source, writes to the one do not show through the other. -/
structure Context.IsolatesCopies (context : Context) : Prop where
  /-- Copying is followed by writes to what it allocated, or what was allocated since. -/
  sources : ∀ (copying : Copying) (after : Store), copying.Fits context.store →
    copying.run context.store = .ok after →
      ∀ now, Writes.UpTo (context.store.size ≤ ·) { context with store := after } now →
        ∀ query : Query, query.Held context.store →
          query.answer now.store = query.answer context.store
  /-- Copying is followed by writes to its source, or what was allocated since. -/
  copies : ∀ (a b : Addr) (after : Store), context.store.IsList a ∨ context.store.IsScope a →
    ¬ context.store.ReachesItself a → context.store.detach a = .ok (b, after) →
      ∀ now, Writes.UpTo (fun c => c = a ∨ after.size ≤ c) { context with store := after } now →
        ∀ query : Query, query.Held after → query.Within after (after.Reaches b) →
          query.answer now.store = query.answer after

section Isolation

variable {context : Context}

theorem Context.sources_isolated (whole : context.store.Whole) {copying : Copying}
    (fits : copying.Fits context.store) {after : Store}
    (done : copying.run context.store = .ok after) {now : Context}
    (run : Writes.UpTo (context.store.size ≤ ·) { context with store := after } now)
    {query : Query} (held : query.Held context.store) :
    query.answer now.store = query.answer context.store := by
  have copied := copying.run_preserves whole fits done
  have apart : ∀ a, a < context.store.size → ¬ context.store.size ≤ a :=
    fun _ => Nat.not_le_of_lt
  have written := run.preserves copied.partAfter apart
  exact (copied.trans written).answer_eq held (held.within whole.toSound)

theorem Context.copies_isolated (whole : context.store.Whole) {a b : Addr} {after : Store}
    (kind : context.store.IsList a ∨ context.store.IsScope a)
    (single : ¬ context.store.ReachesItself a) (done : context.store.detach a = .ok (b, after))
    {now : Context}
    (run : Writes.UpTo (fun c => c = a ∨ after.size ≤ c) { context with store := after } now)
    {query : Query} (held : query.Held after) (within : query.Within after (after.Reaches b)) :
    query.answer now.store = query.answer after := by
  have fits : (Copying.detach a).Fits context.store := kind
  have ran : (Copying.detach a).run context.store = .ok after := by
    rw [Copying.run, done]
    rfl
  have copied := Copying.run_preserves whole fits ran
  have reached : ∀ c, after.Reaches b c → c ≠ a ∧ c < after.size :=
    fun _ => detach_reaches whole.toSound kind single done
  have known : Part (after.Reaches b) after :=
    ⟨copied.wholeAfter, fun c onward => (reached c onward).2, closed_reaches after b⟩
  have apart : ∀ c, after.Reaches b c → ¬ (c = a ∨ after.size ≤ c) := by
    intro c onward written
    rcases written with same | later
    · exact (reached c onward).1 same
    · exact Nat.not_lt_of_ge later (reached c onward).2
  exact (run.preserves known apart).answer_eq held within

end Isolation

/-- In a session that can come about, copies are isolated over every run of writes. -/
theorem Session.Reached.isolates_copies {session : Session} {frames : List Frame}
    (reached : session.Reached frames) : session.context.IsolatesCopies where
  sources _ _ fits done _ run _ held :=
    Context.sources_isolated reached.whole fits done run held
  copies _ _ _ kind single done _ run _ held within :=
    Context.copies_isolated reached.whole kind single done run held within

/-- A list with a map inside a tuple. -/
def Session.listOfMap : Session :=
  (Session.start false).run [
    .store "xs" (.list [.tuple [.map .root [("x", .scalar .none)]]])]

theorem Session.reached_listOfMap : Session.listOfMap.Reached [] :=
  (Session.Reached.start false).run _

/-- The map, the list, and the copies of the map and the list. -/
def Session.copiedListOfMap : Context :=
  { Session.listOfMap.context with
    store.payloads := #[
      .scope ⟨⟨[("x", .scalar .none)]⟩, none⟩, .list [.tuple [.map 0]],
      .scope ⟨⟨[("x", .scalar .none)]⟩, none⟩, .list [.tuple [.map 2]]] }

theorem Session.not_reachesItself_listOfMap :
    ¬ Session.listOfMap.context.store.ReachesItself 1 := by
  have elements : Session.listOfMap.context.store.values 1 = [.tuple [.map 0]] := rfl
  have bindings : Session.listOfMap.context.store.values 0 = [.scalar .none] := rfl
  intro cycle
  obtain ⟨b, ⟨value, stored, named⟩, onward⟩ := Relation.TransGen.head'_iff.mp cycle
  rw [elements, List.mem_singleton] at stored
  obtain rfl : b = 0 := by simpa [stored] using named
  rcases Relation.ReflTransGen.cases_head onward with same | ⟨c, ⟨other, inside, further⟩, _⟩
  · cases same
  · rw [bindings, List.mem_singleton] at inside
    simp [inside] at further

/-- Assigns in the copied map from inside a change of the copied list. -/
def Session.assigningInside : Context.InPlace Unit :=
  fun value context => ((), value, ((Write.assign 2 "x" (.list 1)).run context).2)

theorem Session.writes_assigningInside :
    Writes (2 ≤ ·) Session.copiedListOfMap
      (Context.withItem 3 (.whole 0) Session.assigningInside Session.copiedListOfMap).2 := by
  let lent : Context :=
    { Session.copiedListOfMap with store := Session.copiedListOfMap.store.lend 3 }
  have found : Session.copiedListOfMap.store.item 3 (.whole 0) = .ok (0, .tuple [.map 2]) := rfl
  have assigned : Writes (2 ≤ ·) lent ((Write.assign 2 "x" (.list 1)).run lent).2 := by
    have held : (Value.list 1).Held lent.store := (Value.held_list _ 1).mpr ⟨_, rfl⟩
    refine .write (.assign 2 "x" (.list 1)) ⟨⟨_, rfl⟩, held⟩ ?_ (.done _)
    intro owner found
    cases found
    decide
  have held : (Value.tuple [.map 2]).Held ((Write.assign 2 "x" (.list 1)).run lent).2.store := by
    rw [Value.held_tuple, List.forall_mem_singleton, Value.held_map]
    exact ⟨_, rfl⟩
  exact .withItem ⟨_, rfl⟩ (by decide) found Session.assigningInside rfl assigned held (.done _)

/-- Neither the assignment nor a push to the list that was copied shows elsewhere. -/
theorem Session.isolates_copies_listOfMap :
    Session.listOfMap.context.store.detach 1 = .ok (3, Session.copiedListOfMap.store) ∧
      (Query.find 0 "x").answer (Context.withItem 3 (.whole 0) Session.assigningInside
          Session.copiedListOfMap).2.store =
        (Query.find 0 "x").answer Session.listOfMap.context.store ∧
      (Query.elements 3).answer ((Write.push 1 (.map 2)).run Session.copiedListOfMap).2.store =
        (Query.elements 3).answer Session.copiedListOfMap.store := by
  have isolates := Session.Reached.isolates_copies Session.reached_listOfMap
  have isList : Session.listOfMap.context.store.IsList 1 := ⟨_, rfl⟩
  have pushed : Writes (fun c => c = 1 ∨ 4 ≤ c) Session.copiedListOfMap
      ((Write.push 1 (.map 2)).run Session.copiedListOfMap).2 := by
    have held : (Value.map 2).Held Session.copiedListOfMap.store :=
      (Value.held_map _ 2).mpr ⟨_, rfl⟩
    exact .write (.push 1 (.map 2)) ⟨⟨_, rfl⟩, held⟩ (.inl rfl) (.done _)
  refine ⟨rfl, ?_, ?_⟩
  · exact isolates.sources (.detach 1) _ (.inl isList) rfl _ (.run Session.writes_assigningInside)
      _ ⟨_, rfl⟩
  · exact isolates.copies 1 3 _ (.inl isList) Session.not_reachesItself_listOfMap rfl _
      (.run pushed) _ ⟨_, rfl⟩ .refl

end ScopedValues
