import ScopedValues.Proofs.Copies.Termination
import ScopedValues.Proofs.Sessions.Reachable
import ScopedValues.Proofs.Views.Copying
import ScopedValues.Proofs.Views.Equality
import ScopedValues.Proofs.Views.Termination

/-!
Contract: copies compared with their sources.

Owns the scalars that a copy has of its own, the comparison of a copy with its source in either
order, and the list made of a tuple.

Main statement: in every session that can come about, a copy and its source are equal exactly if
no scalar that the copy has of its own is a NaN, also where they contain themselves; and the copy
is written as its source was, and still is.

Storage that stays shared is equal to itself unseen. So NaNs in it do not matter to a copy that
shares it, and spoil a copy that has storage of its own in its place.
-/

set_option autoImplicit false

namespace ScopedValues

open Store

/-! ## The scalars that a copy has of its own -/

/--
Copying `value` in this mode makes another one of this scalar. Elements of tuples are copied
deeply, and what lists and maps hold is copied plainly if they get storage of their own.
-/
inductive CopyMode.Duplicates (store : Store) : CopyMode → Value → Scalar → Prop where
  | scalar (mode : CopyMode) (x : Scalar) : Duplicates store mode (.scalar x) x
  | tuple {mode : CopyMode} {items : List Value} {item : Value} {x : Scalar}
      (member : item ∈ items) (inside : Duplicates store .deep item x) :
      Duplicates store mode (.tuple items) x
  | list {a : Addr} {item : Value} {x : Scalar} (member : item ∈ store.items a)
      (inside : Duplicates store .plain item x) : Duplicates store .deep (.list a) x
  | map {a : Addr} {value : Value} {x : Scalar}
      (member : value ∈ (store.scope a).bindings.entries.map Prod.snd)
      (inside : Duplicates store .plain value x) : Duplicates store .deep (.map a) x

/-- No scalar that this copy of a value has of its own is a NaN. -/
def CopyMode.Clean (mode : CopyMode) (store : Store) (value : Value) : Prop :=
  ∀ x, mode.Duplicates store value x → x.isNaN = false

namespace CopyMode

variable {store : Store} {a : Addr}

theorem clean_scalar_iff (mode : CopyMode) (x : Scalar) :
    mode.Clean store (.scalar x) ↔ x.isNaN = false := by
  constructor
  · exact fun clean => clean x (.scalar mode x)
  · rintro proper _ ⟨⟩
    exact proper

theorem clean_tuple_iff (mode : CopyMode) (items : List Value) :
    mode.Clean store (.tuple items) ↔ ∀ item ∈ items, CopyMode.deep.Clean store item := by
  constructor
  · exact fun clean item member x inside => clean x (.tuple member inside)
  · rintro clean x (_ | ⟨member, inside⟩)
    exact clean _ member x inside

theorem clean_list_iff :
    CopyMode.deep.Clean store (.list a) ↔
      ∀ item ∈ store.items a, CopyMode.plain.Clean store item := by
  constructor
  · exact fun clean item member x inside => clean x (.list member inside)
  · rintro clean x (_ | _ | ⟨member, inside⟩)
    exact clean _ member x inside

theorem clean_map_iff :
    CopyMode.deep.Clean store (.map a) ↔
      ∀ value ∈ (store.scope a).bindings.entries.map Prod.snd,
        CopyMode.plain.Clean store value := by
  constructor
  · exact fun clean value member x inside => clean x (.map member inside)
  · rintro clean x (_ | _ | _ | ⟨member, inside⟩)
    exact clean _ member x inside

/-- A plain copy of a list or map has no scalars of its own. -/
theorem clean_of_shared {value : Value} (shared : value = .list a ∨ value = .map a) :
    CopyMode.plain.Clean store value := by
  rcases shared with rfl | rfl <;> rintro _ ⟨⟩

end CopyMode

/-! ## Tables with the same keys in the same order -/

theorem Table.includesBy_eq_equalAllBy {agree : Addr → Addr → Except Fault Bool}
    {table other : Table Value} (distinct : other.keys.Nodup) (keys : table.keys = other.keys) :
    includesBy agree other table.entries =
      Value.equalAllBy agree (table.entries.map Prod.snd) (other.entries.map Prod.snd) := by
  have general : ∀ entries others : List (String × Value),
      entries.map Prod.fst = others.map Prod.fst →
      (∀ entry ∈ others, other.get? entry.1 = some entry.2) →
        includesBy agree other entries =
          Value.equalAllBy agree (entries.map Prod.snd) (others.map Prod.snd) := by
    intro entries
    induction entries with
    | nil => exact fun _ _ _ => rfl
    | cons entry rest inductionHypothesis =>
        intro others same bound
        cases others with
        | nil => cases same
        | cons found tail =>
            obtain ⟨key, value⟩ := entry
            obtain ⟨first, later⟩ := List.cons.inj same
            obtain rfl : key = found.1 := first
            rw [List.forall_mem_cons] at bound
            rw [includesBy, bound.1, inductionHypothesis tail later bound.2]
            rfl
  exact general table.entries other.entries keys fun entry member =>
    Table.get?_of_mem distinct member

/-! ## Comparing in either order -/

/-- Comparing two values decides the claim, whichever of them comes first. -/
structure DecidesEither (agree : Addr → Addr → Except Fault Bool) (x y : Value)
    (claim : Prop) : Prop where
  forward : Decides (x.equalBy agree y) claim
  backward : Decides (y.equalBy agree x) claim

/-- Comparing two rows of values decides the claim, whichever of them comes first. -/
structure DecidesEitherRow (agree : Addr → Addr → Except Fault Bool) (xs ys : List Value)
    (claim : Prop) : Prop where
  length : xs.length = ys.length
  forward : Decides (Value.equalAllBy agree xs ys) claim
  backward : Decides (Value.equalAllBy agree ys xs) claim

section Either

variable {agree : Addr → Addr → Except Fault Bool} {x y : Value} {xs ys : List Value}
  {claim further : Prop}

theorem DecidesEither.congr (decides : DecidesEither agree x y claim) (same : claim ↔ further) :
    DecidesEither agree x y further :=
  ⟨decides.forward.congr same, decides.backward.congr same⟩

theorem DecidesEither.of_self (self : Decides (x.equalBy agree x) claim) :
    DecidesEither agree x x claim :=
  ⟨self, self⟩

theorem DecidesEitherRow.cons (first : DecidesEither agree x y claim)
    (rest : DecidesEitherRow agree xs ys further) :
    DecidesEitherRow agree (x :: xs) (y :: ys) (claim ∧ further) where
  length := congrArg Nat.succ rest.length
  forward := first.forward.andThen rest.forward
  backward := first.backward.andThen rest.backward

theorem DecidesEitherRow.tuple (row : DecidesEitherRow agree xs ys claim) :
    DecidesEither agree (.tuple xs) (.tuple ys) claim where
  forward := by
    rw [Value.equalBy, if_pos row.length]
    exact row.forward
  backward := by
    rw [Value.equalBy, if_pos row.length.symm]
    exact row.backward

end Either

/-! ## A copy and its source -/

section Copy

variable {before after : Store}

/-- Storage that stays shared is equal to itself unseen. -/
theorem Store.decides_shared (after before : Store) {a : Addr} {value : Value}
    (shared : value = .list a ∨ value = .map a) :
    Decides (value.equalBy after.agree value) (CopyMode.plain.Clean before value) := by
  have same : after.agree a a = .ok true := by rw [agree, agreeWithin_succ, if_pos rfl]
  have clean : CopyMode.plain.Clean before value := CopyMode.clean_of_shared shared
  rcases shared with rfl | rfl
  · rw [Value.equalBy, same]
    exact .yes clean
  · rw [Value.equalBy, same]
    exact .yes clean

/-- Storage that was added is looked at when it is compared with what was there. -/
theorem Store.Extends.agree_fresh {a b : Addr} {first second : Payload}
    (extension : before.Extends after) (whole : before.Whole) (typed : after.Typed)
    (free : a ∉ before.lent) (source : before.payloads[a]? = some first)
    (made : after.payloads[b]? = some second) (fresh : before.size ≤ b) :
    after.agree b a = second.equalBy after.agree first ∧
      after.agree a b = first.equalBy after.agree second := by
  have old : a < before.size := (Array.getElem?_eq_some_iff.mp source).1
  have present : b < after.size := (Array.getElem?_eq_some_iff.mp made).1
  have different : b ≠ a := Nat.ne_of_gt (Nat.lt_of_lt_of_le old fresh)
  have freeCopy : b ∉ after.lent := fun held =>
    Nat.not_lt_of_ge fresh (whole.lent b (extension.lent ▸ held))
  have sourceRead := readPayload_of_free (extension.lent ▸ free) (extension.payload source)
  have copyRead := readPayload_of_free freeCopy made
  have kept : a < after.size := Nat.lt_of_lt_of_le old extension.size
  constructor
  · rw [agree_eq typed present kept, if_neg different, agreePayloads_eq copyRead sourceRead]
  · rw [agree_eq typed kept present, if_neg different.symm, agreePayloads_eq sourceRead copyRead]

mutual

/-- A copy and its source are equal exactly if no scalar that the copy has of its own is a NaN. -/
theorem Copied.decidesEither (extension : before.Extends after) (whole : before.Whole)
    (typed : after.Typed) :
    ∀ {mode : CopyMode} {value copy : Value}, Copied before after mode value copy →
      DecidesEither after.agree copy value (mode.Clean before value)
  | _, _, _, .scalar mode x =>
      .of_self ⟨_, rfl, (Scalar.equal_self_iff x).trans (CopyMode.clean_scalar_iff mode x).symm⟩
  | mode, _, _, .tuple elements => by
      exact (elements.decidesEitherRow extension whole typed).tuple.congr
        (CopyMode.clean_tuple_iff mode _).symm
  | _, _, _, .sharedList a => .of_self (after.decides_shared before (.inl rfl))
  | _, _, _, .sharedMap a => .of_self (after.decides_shared before (.inr rfl))
  | _, _, _, @Copied.freshList _ _ a b items copies free source made fresh elements => by
      have row := elements.decidesEitherRow extension whole typed
      have contents : before.items a = items := by rw [Store.items, source]
      obtain ⟨forward, backward⟩ := extension.agree_fresh whole typed free source made fresh
      refine DecidesEither.congr ⟨?_, ?_⟩ (contents ▸ CopyMode.clean_list_iff.symm)
      · rw [Value.equalBy, forward, Payload.equalBy, if_pos row.length]
        exact row.forward
      · rw [Value.equalBy, backward, Payload.equalBy, if_pos row.length.symm]
        exact row.backward
  | _, _, _, @Copied.freshMap _ _ a b inner copy free source made fresh parent keys elements => by
      have row := elements.decidesEitherRow extension whole typed
      have contents : before.scope a = inner := by rw [Store.scope, source]
      have distinct : inner.bindings.keys.Nodup := contents ▸ whole.keys a
      have sizes : copy.bindings.size = inner.bindings.size := by
        simpa [Table.size] using row.length
      obtain ⟨forward, backward⟩ := extension.agree_fresh whole typed free source made fresh
      refine DecidesEither.congr ⟨?_, ?_⟩ (contents ▸ CopyMode.clean_map_iff.symm)
      -- Both tables have the same keys in the same order, so that looking the keys of one up in
      -- the other goes through both in step.
      · rw [Value.equalBy, forward, Payload.equalBy, if_pos ⟨parent, sizes⟩,
          Table.includesBy_eq_equalAllBy distinct keys]
        exact row.forward
      · rw [Value.equalBy, backward, Payload.equalBy, if_pos ⟨parent.symm, sizes.symm⟩,
          Table.includesBy_eq_equalAllBy (keys ▸ distinct) keys.symm]
        exact row.backward

theorem CopiedAll.decidesEitherRow (extension : before.Extends after) (whole : before.Whole)
    (typed : after.Typed) :
    ∀ {mode : CopyMode} {items copies : List Value}, CopiedAll before after mode items copies →
      DecidesEitherRow after.agree copies items (∀ item ∈ items, mode.Clean before item)
  | _, _, _, .nil _ => ⟨rfl, .yes (by simp), .yes (by simp)⟩
  | _, _, _, .cons head rest => by
      rw [List.forall_mem_cons]
      exact .cons (head.decidesEither extension whole typed)
        (rest.decidesEitherRow extension whole typed)

end

end Copy

/-! ## Faithful copies -/

/-- How a copy that has been made in this mode compares with its source, and looks. -/
structure Store.Faithful (before after : Store) (mode : CopyMode) (value copy : Value) : Prop where
  equal : Decides (after.equal copy value) (mode.Clean before value)
  reversed : Decides (after.equal value copy) (mode.Clean before value)
  looks : after.picture copy = before.picture value
  /-- The source looks as it did before. -/
  unchanged : after.picture value = before.picture value

section Copy

variable {before after : Store}

theorem Copied.faithful (extension : before.Extends after) (whole : before.Whole)
    (typed : after.Typed) {mode : CopyMode} {value copy : Value}
    (copied : Copied before after mode value copy) (held : value.Held before) :
    before.Faithful after mode value copy where
  equal := (copied.decidesEither extension whole typed).forward
  reversed := (copied.decidesEither extension whole typed).backward
  looks := picture_copied whole extension copied held
  unchanged := (extension.agree whole.toTyped).picture_eq held.within

/-- Copies of several values, made one after the other, are faithful to their sources. -/
theorem CopiedAll.faithful (extension : before.Extends after) (whole : before.Whole)
    (typed : after.Typed) {mode : CopyMode} {items : List Value} :
    ∀ {copies : List Value}, CopiedAll before after mode items copies →
      (∀ item ∈ items, item.Held before) →
        List.Forall₂ (before.Faithful after mode) items copies := by
  induction items with
  | nil =>
      rintro _ ⟨⟩ _
      exact .nil
  | cons item rest inductionHypothesis =>
      rintro _ (_ | ⟨head, tail⟩) held
      rw [List.forall_mem_cons] at held
      exact .cons (head.faithful extension whole typed held.1) (inductionHypothesis tail held.2)

end Copy

/-- What storage says of all copies of its values, and of all lists made of its tuples. -/
structure Store.CopiesFaithfully (store : Store) : Prop where
  faithful : ∀ (mode : CopyMode) (value copy : Value) (after : Store), value.Held store →
    mode.run store value = .ok (copy, after) → store.Faithful after mode value copy
  listed : ∀ (items : List Value) (b : Addr) (after : Store), (Value.tuple items).Held store →
    store.listOfTuple (.tuple items) = .ok (b, after) →
      List.Forall₂ (store.Faithful after .deep) items (after.items b)
  /-- Outside all changes in place, every copy that ends is made. -/
  made : store.lent = [] → ∀ (mode : CopyMode) (value : Value), value.Held store →
    Terminates (mode.attempt store value) → ∃ copy after, mode.run store value = .ok (copy, after)
  madeList : store.lent = [] → ∀ items : List Value, (Value.tuple items).Held store →
    Terminates (CopyMode.deep.attempt store (.tuple items)) →
      ∃ b after, store.listOfTuple (.tuple items) = .ok (b, after)
  /-- What leads to no cycle has a text. -/
  written : store.lent = [] → ∀ value : Value, value.Held store → value.Acyclic store →
    ∃ text, store.text value = .ok text

namespace Store

variable {store : Store}

theorem listOfTuple_eq_ok {items : List Value} {b : Addr} {after : Store}
    (made : store.listOfTuple (.tuple items) = .ok (b, after)) :
    ∃ copies middle, store.deepCopy (.tuple items) = .ok (.tuple copies, middle) ∧
      b = (middle.allocate (.list copies)).1 ∧ after = (middle.allocate (.list copies)).2 := by
  rw [listOfTuple] at made
  rw [deepCopy_tuple]
  cases copied : store.deepCopyAll items with
  | error fault =>
      rw [copied] at made
      cases made
  | ok result =>
      rw [copied] at made
      cases made
      exact ⟨result.1, result.2, rfl, rfl, rfl⟩

theorem Whole.copiesFaithfully (whole : store.Whole) : store.CopiesFaithfully where
  faithful mode value copy after held ran := by
    obtain ⟨renewal, copied⟩ := CopyMode.run_ok whole.toTyped held mode ran
    exact copied.faithful renewal.extension whole (renewal.sound whole.toSound).toTyped held
  listed items b after held made := by
    obtain ⟨copies, middle, ran, rfl, rfl⟩ := listOfTuple_eq_ok made
    obtain ⟨renewal, copied⟩ := CopyMode.run_ok whole.toTyped held .deep ran
    cases copied with
    | tuple elements =>
        have allocated := extends_allocate middle (.list copies)
        have extension := renewal.extension.trans allocated
        have heldAll := (Value.held_tuple store items).mp held
        have sound := (keeps_listOfTuple whole.toSound held _ _ made).1.sound
        have contents : (middle.allocate (.list copies)).2.items
            (middle.allocate (.list copies)).1 = copies := by
          rw [Store.items, payload_allocate_self]
        rw [contents]
        exact (elements.extend allocated).faithful extension whole sound.toTyped heldAll
  made idle mode value held ends := by
    obtain ⟨⟨copy, after⟩, ran⟩ :=
      (CopyMode.terminates_iff whole.toTyped idle held mode).2.mp ends
    exact ⟨copy, after, ran⟩
  madeList idle items held ends := by
    obtain ⟨result, ran⟩ := (CopyMode.terminates_iff whole.toTyped idle held .deep).2.mp ends
    change store.deepCopy (.tuple items) = .ok result at ran
    rw [deepCopy_tuple] at ran
    cases copied : store.deepCopyAll items with
    | error fault =>
        rw [copied] at ran
        cases ran
    | ok copies => exact ⟨_, _, by rw [listOfTuple, copied]; rfl⟩
  written idle value held acyclic := (text_ok_iff whole.toSound idle held).mpr acyclic

end Store

namespace Session

/-- In every session that can come about, copies are faithful to their sources. -/
theorem Reached.copies_faithfully {session : Session} {frames : List Frame}
    (reached : Reached session frames) : session.context.store.CopiesFaithfully :=
  reached.whole.copiesFaithfully

/-- A list with a NaN in it, and one that contains itself and the first one. -/
def oddAndCircular : Session :=
  (start false).run [
    .store "odd" (.list [.scalar (.num ⟨0x7ff8000000000000⟩)]),
    .store "circular" (.list []),
    .act "circular" [] (.onList (.push (.copy "circular"))) {},
    .act "circular" [] (.onList (.push (.copy "odd"))) {}]

theorem reachable_oddAndCircular : oddAndCircular.Reachable :=
  (Reached.start false).run _

/-- A NaN does not spoil the copy of a list that contains itself as long as the NaN stays shared.
It spoils the copy of a tuple, which does not share it. -/
theorem copies_faithfully_oddAndCircular :
    oddAndCircular.Reachable ∧
      (∃ after,
        CopyMode.deep.run oddAndCircular.context.store (.list 1) = .ok (.list 2, after) ∧
          after.equal (.list 2) (.list 1) = .ok true ∧
          after.equal (.list 1) (.list 2) = .ok true) ∧
      (∃ after,
        CopyMode.plain.run oddAndCircular.context.store (.tuple [.list 0]) =
            .ok (.tuple [.list 2], after) ∧
          after.equal (.tuple [.list 2]) (.tuple [.list 0]) = .ok false ∧
          after.equal (.tuple [.list 0]) (.tuple [.list 2]) = .ok false) := by
  have faithful := Reached.copies_faithfully reachable_oddAndCircular
  have odd : (Value.list 0).Held oddAndCircular.context.store := (Value.held_list _ _).mpr ⟨_, rfl⟩
  have circular : (Value.list 1).Held oddAndCircular.context.store :=
    (Value.held_list _ _).mpr ⟨_, rfl⟩
  have clean : CopyMode.deep.Clean oddAndCircular.context.store (.list 1) := by
    refine CopyMode.clean_list_iff.mpr fun item member => ?_
    rcases List.mem_pair.mp member with rfl | rfl
    · exact CopyMode.clean_of_shared (.inl rfl)
    · exact CopyMode.clean_of_shared (.inl rfl)
  have spoiled : ¬ CopyMode.plain.Clean oddAndCircular.context.store (.tuple [.list 0]) := by
    intro clean
    have isNaN := clean (.num ⟨0x7ff8000000000000⟩)
      (.tuple (List.mem_singleton_self _) (.list (List.mem_singleton_self _) (.scalar _ _)))
    exact absurd isNaN (by decide)
  have bundled : (Value.tuple [.list 0]).Held oddAndCircular.context.store :=
    (Value.held_tuple _ _).mpr (by simpa using odd)
  refine ⟨reachable_oddAndCircular, ?_, ?_⟩
  · have ran : CopyMode.deep.run oddAndCircular.context.store (.list 1) = .ok (.list 2, _) := rfl
    have copied := faithful.faithful _ _ _ _ circular ran
    exact ⟨_, ran, copied.equal.eq_ok_true_iff.mpr clean,
      copied.reversed.eq_ok_true_iff.mpr clean⟩
  · have ran : CopyMode.plain.run oddAndCircular.context.store (.tuple [.list 0]) =
      .ok (.tuple [.list 2], _) := rfl
    have copied := faithful.faithful _ _ _ _ bundled ran
    exact ⟨_, ran, copied.equal.eq_ok_false_iff.mpr spoiled,
      copied.reversed.eq_ok_false_iff.mpr spoiled⟩

end Session

end ScopedValues
