import ScopedValues.Proofs.Copies.Termination
import ScopedValues.Proofs.Scopes.Forest
import ScopedValues.Proofs.Scopes.Globals
import ScopedValues.Proofs.Views.Queries

/-!
Contract: a scope and a copy of it that is made later.

Owns where keys resolve to right after a scope has been copied, and what the runs that are made
through one of the two scopes alone leave of the other.

Main statement: the copy stands inside the same scopes as its source and not on any other chain;
nothing that is done through one of the two changes the bindings of the other; and what either
writes further out is written where both of them see it.

The chain of the copy never contains the source, because parents are older than their children
and the copy has the parent of its source.
-/

set_option autoImplicit false

namespace ScopedValues

open Store

namespace Store

/-! ## Chains inside the same scopes -/

section Chains

variable {store : Store} {a b : Addr}

/-- Scopes with one parent stand inside the same scopes. -/
theorem tail_chain_eq (sound : store.Sound)
    (same : (store.scope a).parent = (store.scope b).parent) :
    (store.chain a).tail = (store.chain b).tail := by
  rw [chain_eq_cons sound a, chain_eq_cons sound b, same, List.tail_cons, List.tail_cons]

/-- A search looks at the scope itself, and then further out. -/
theorem owner?_eq_of_free (sound : store.Sound) (free : a ∉ store.lent) (key : String) :
    store.owner? a key =
      if store.binds key a = true then .ok (some a)
      else store.firstBinding key (store.chain a).tail := by
  rw [owner?, chain_eq_cons_tail sound a, firstBinding, readScope_eq, if_neg free, List.tail_cons]
  rfl

theorem not_mem_tail_chain (sound : store.Sound) (a : Addr) : a ∉ (store.chain a).tail := by
  have distinct := nodup_chain sound a
  rw [chain_eq_cons_tail sound a] at distinct
  exact (List.nodup_cons.mp distinct).1

theorem resolve?_of_binds (sound : store.Sound) {key : String} {value : Value}
    (bound : (store.scope a).bindings.get? key = some value) :
    store.resolve? a key = some (a, value) := by
  rw [resolve?, chain_eq_cons_tail sound a, resolveAlong, List.findSome?_cons, bound]
  rfl

end Chains

/-! ## Right after the copy -/

/-- The scope at `c` has just been made as a copy of the scope at `m`. -/
structure Snapshot (before after : Store) (m c : Addr) : Prop where
  fresh : ¬ before.IsScope c
  isScope : after.IsScope c
  extension : before.Extends after
  keys : (after.scope c).bindings.keys = (before.scope m).bindings.keys
  /-- Old chains are what they were, and the copy is on none of them. -/
  chains : ∀ d, before.IsScope d → after.chain d = before.chain d ∧ c ∉ after.chain d
  /-- The copy stands inside the scopes that its source stands inside. -/
  around : after.chain c = c :: (before.chain m).tail
  /-- Through old scopes, every key is found where it was. -/
  kept : ∀ d key, before.IsScope d → after.owner? d key = before.owner? d key
  own : ∀ key, before.binds key m = true → after.owner? c key = .ok (some c)
  outer : ∀ key, before.binds key m = false → after.owner? c key = before.owner? m key

section Snapshot

variable {before after : Store} {m c : Addr}

/-- Through an old scope, a key is found where it was before storage was added to. -/
theorem Extends.owner?_eq (extension : before.Extends after) (sound : before.Sound)
    (soundAfter : after.Sound) {d : Addr} (old : before.IsScope d) (key : String) :
    after.owner? d key = before.owner? d key := by
  rw [owner?, owner?, extension.grows.toRetains.chain_eq sound soundAfter old]
  exact (extension.agree sound.toTyped).firstBinding_eq key fun scope member =>
    (isScope_of_mem_chain sound old scope member).lt_size

/-- What the copy of a scope has from its source is the parent and the keys. -/
theorem copied_scope (copied : Copied before after .deep (.map m) (.map c)) :
    m ∉ before.lent ∧ before.size ≤ c ∧ after.IsScope c ∧
      (after.scope c).parent = (before.scope m).parent ∧
      (after.scope c).bindings.keys = (before.scope m).bindings.keys := by
  cases copied with
  | @freshMap _ _ inner copy free source made fresh parent keys elements =>
      have sourceScope : before.scope m = inner := by rw [scope, source]
      have copyScope : after.scope c = copy := by rw [scope, made]
      rw [sourceScope, copyScope]
      exact ⟨free, fresh, ⟨_, made⟩, parent, keys⟩

theorem snapshot (whole : before.Whole) (isScope : before.IsScope m)
    (ran : CopyMode.deep.run before (.map m) = .ok (.map c, after)) :
    before.Snapshot after m c := by
  obtain ⟨renewal, copied⟩ :=
    CopyMode.run_ok whole.toTyped ((Value.held_map _ _).mpr isScope) .deep ran
  obtain ⟨free, fresh, isCopy, parent, keys⟩ := copied_scope copied
  have extension := renewal.extension
  have sound := renewal.sound whole.toSound
  have isFresh : ¬ before.IsScope c := fun old => Nat.not_lt_of_ge fresh old.lt_size
  have freeCopy : c ∉ after.lent := fun held =>
    Nat.not_lt_of_ge fresh (whole.lent c (extension.lent ▸ held))
  have stays : after.scope m = before.scope m := extension.scope_eq isScope.lt_size
  have tails : (after.chain c).tail = (after.chain m).tail :=
    tail_chain_eq sound (by rw [parent, stays])
  have binds : ∀ key, after.binds key c = before.binds key m := by
    intro key
    rw [Bool.eq_iff_iff, Store.binds, Store.binds, Table.contains_iff_mem_keys,
      Table.contains_iff_mem_keys, keys]
  refine ⟨isFresh, isCopy, extension, keys, fun d old => ?_, ?_,
    fun d key old => extension.owner?_eq whole.toSound sound old key, fun key bound => ?_,
    fun key unbound => ?_⟩
  · have same := extension.grows.toRetains.chain_eq whole.toSound sound old
    refine ⟨same, fun member => isFresh ?_⟩
    exact isScope_of_mem_chain whole.toSound old c (same ▸ member)
  · rw [chain_eq_cons_tail sound c, tails,
      extension.grows.toRetains.chain_eq whole.toSound sound isScope]
  · rw [owner?_eq_of_free sound freeCopy, if_pos ((binds key).trans bound)]
  · -- Neither of the two binds the key, so both searches go on in the scopes that they share.
    have unboundThere : after.binds key m = false := by rwa [Store.binds, stays]
    rw [← extension.owner?_eq whole.toSound sound isScope, owner?_eq_of_free sound freeCopy,
      owner?_eq_of_free sound (extension.lent ▸ free), tails, binds key, unbound, unboundThere,
      if_neg Bool.false_ne_true, if_neg Bool.false_ne_true]

end Snapshot

end Store

/-! ## Writes further out -/

namespace Context

/-- A write of `key` through the scope at `one` goes to `owner`, further out, and is seen from the
scope at `other`. -/
structure WritesShared (context : Context) (one other : Addr) (key : String) (owner : Addr) :
    Prop where
  outside : owner ∈ (context.store.chain other).tail
  assigned : ∀ value, assign one key value context =
    (.ok (), { context with store := context.store.setEntry owner key value })
  inPlace : ∃ old, context.store.resolve? other key = some (owner, old) ∧
    (∀ {ρ : Type} (work : InPlace ρ), withEntry one key work context =
      onEntry owner key old work context) ∧
    ∀ change : Value → Context → Value,
      withEntry one key (fun value context => ((), change value context, context)) context =
        (.ok (), { context with
          store := context.store.setEntry owner key
            (change old { context with store := context.store.lend owner }) })
  seen : ∀ value, (context.store.setEntry owner key value).resolve? other key = some (owner, value)

variable {context : Context} {one other owner : Addr} {key : String}

/-- Scopes that stand inside the same ones, and do not bind a key themselves, share what it is
bound to further out. -/
theorem writesShared (sound : context.store.Sound) (isScope : context.store.IsScope one)
    (isScopeToo : context.store.IsScope other)
    (around : (context.store.chain one).tail = (context.store.chain other).tail)
    (found : context.store.owner? one key = .ok (some owner))
    (unbound : context.store.binds key one = false)
    (unboundToo : context.store.binds key other = false) :
    WritesShared context one other key owner := by
  have clear : context.store.Clear one key := by
    refine clear_of_not_blocked sound fun blocked => ?_
    rw [Store.owner?_of_blocked blocked] at found
    cases found
  have nearest : context.store.nearest? one key = some owner :=
    Except.ok.inj (clear.found.symm.trans found)
  have further : (context.store.chain other).tail.find? (context.store.binds key) = some owner := by
    rw [nearest?, chain_eq_cons_tail sound, List.find?_cons_of_neg (by simp [unbound])] at nearest
    rw [← around, nearest]
  have nearestToo : context.store.nearest? other key = some owner := by
    rw [nearest?, chain_eq_cons_tail sound, List.find?_cons_of_neg (by simp [unboundToo]), further]
  have writer : context.store.writer one key = owner := by rw [Store.writer, nearest]; rfl
  have writerToo : context.store.writer other key = owner := by rw [Store.writer, nearestToo]; rfl
  obtain ⟨old, bound, resolved⟩ := resolve?_of_nearest? nearestToo
  have inPlace : ∀ {ρ : Type} (work : InPlace ρ), withEntry one key work context =
      onEntry owner key old work context := fun work =>
    withEntry_eq (clear.entry_of_bound sound isScope nearest bound) work
  refine ⟨List.mem_of_find?_eq_some further, fun value => ?_,
    ⟨old, resolved, inPlace, fun change => ?_⟩, fun value => ?_⟩
  · rw [Context.assign_eq clear value, writer, nearest]
    rfl
  · rw [inPlace, onEntry_slot]
  · rw [← writerToo]
    exact resolve?_setEntry_writer sound isScopeToo key value

end Context

/-! ## Later runs -/

/-- What a run through the scope at `one` alone has left of the scope at `other`. -/
structure Scene.Spares (last : Scene) (before : Store) (one other : Addr) : Prop where
  same : last.store.scope other = before.scope other
  /-- What the scope binds itself means what it meant. -/
  means : ∀ key value, (before.scope other).bindings.get? key = some value →
    last.store.resolve? other key = some (other, value) ∧
      (other ∉ last.store.lent → last.store.owner? other key = .ok (some other))
  /-- A key that neither scope binds now is written where both of them see it. -/
  shared : ∀ key owner, last.store.owner? one key = .ok (some owner) →
    last.store.binds key one = false → last.store.binds key other = false →
      last.context.WritesShared one other key owner

/-- A run through one of two scopes inside the same ones spares the other. -/
theorem Scene.Uses.spares {context : Context} {one other : Addr} {around : List Addr}
    {leaks : List String} {last : Scene} (uses : Uses around ⟨one, context, []⟩ leaks last)
    (sound : context.store.Sound) (isScope : context.store.IsScope one)
    (isScopeToo : context.store.IsScope other) (chain : context.store.chain one = one :: around)
    (chainToo : context.store.chain other = other :: around) (different : one ≠ other) :
    last.Spares context.store one other := by
  obtain ⟨⟨⟨lastSound, _, _⟩, _, _⟩, confined⟩ :=
    uses.confined ⟨⟨sound, isScope, by simp⟩, chain, by simp⟩ (List.Subset.refl _)
  have retains := confined.retains
  have apart : other ∉ around := by
    have outside := not_mem_tail_chain sound other
    rwa [chainToo] at outside
  have same : last.store.scope other = context.store.scope other :=
    confined.same other isScopeToo different fun shared => absurd shared apart
  have chainAfter := retains.chain_eq sound lastSound isScope
  have chainAfterToo := retains.chain_eq sound lastSound isScopeToo
  refine ⟨same, fun key value bound => ?_, fun key owner found unbound unboundToo => ?_⟩
  · rw [← same] at bound
    refine ⟨resolve?_of_binds lastSound bound, fun free => ?_⟩
    rw [owner?_eq_of_free lastSound free, if_pos (by rw [binds_eq_isSome, bound]; rfl)]
  · have around : (last.store.chain one).tail = (last.store.chain other).tail := by
      rw [chainAfter, chainAfterToo, chain, chainToo, List.tail_cons, List.tail_cons]
    exact Context.writesShared lastSound (retains.scopes one isScope)
      (retains.scopes other isScopeToo) around found unbound unboundToo

/-- The scope at `m` has been copied to `c`, and runs are made through one of the two alone. -/
structure Context.Detaches (context : Context) (m c : Addr) (after : Store) : Prop where
  snapshot : context.store.Snapshot after m c
  throughCopy : ∀ leaks last,
    Scene.Uses (after.chain m).tail ⟨c, { context with store := after }, []⟩ leaks last →
      last.Spares after c m
  throughSource : ∀ leaks last,
    Scene.Uses (after.chain m).tail ⟨m, { context with store := after }, []⟩ leaks last →
      last.Spares after m c

theorem Context.detaches {context : Context} {m c : Addr} {after : Store}
    (whole : context.store.Whole) (isScope : context.store.IsScope m)
    (ran : CopyMode.deep.run context.store (.map m) = .ok (.map c, after)) :
    context.Detaches m c after := by
  have snapshot := snapshot whole isScope ran
  have sound : after.Sound := by
    have held := (Value.held_map context.store m).mpr isScope
    exact (CopyMode.run_ok whole.toTyped held .deep ran).1.sound whole.toSound
  have different : c ≠ m := by
    rintro rfl
    exact snapshot.fresh isScope
  have stays : after.IsScope m := snapshot.extension.grows.scopes m isScope
  have chain : after.chain m = m :: (after.chain m).tail := chain_eq_cons_tail sound m
  have chainCopy : after.chain c = c :: (after.chain m).tail := by
    rw [snapshot.around, (snapshot.chains m isScope).1]
  exact ⟨snapshot,
    fun _ _ uses => uses.spares sound snapshot.isScope stays chainCopy chain different,
    fun _ _ uses => uses.spares sound stays snapshot.isScope chain chainCopy different.symm⟩

namespace Session

/-- In every session that can come about, scopes are copied to scopes of their own inside the
same ones; and outside all changes in place, every copy that ends is made. -/
theorem Reached.detaches_scopes {session : Session} {frames : List Frame}
    (reached : session.Reached frames) {m : Addr} (isScope : session.context.store.IsScope m) :
    (∀ c after, CopyMode.deep.run session.context.store (.map m) = .ok (.map c, after) →
      session.context.Detaches m c after) ∧
    (frames = [] → Terminates (CopyMode.deep.attempt session.context.store (.map m)) →
      ∃ c after, CopyMode.deep.run session.context.store (.map m) = .ok (.map c, after)) := by
  have whole := reached.whole
  refine ⟨fun c after ran => Context.detaches whole isScope ran, fun none ends => ?_⟩
  have idle : session.context.store.lent = [] := by
    rw [reached.stands.lent, none, List.map_nil]
  have held := (Value.held_map session.context.store m).mpr isScope
  obtain ⟨⟨copy, after⟩, ran⟩ := (CopyMode.terminates_iff whole.toTyped idle held .deep).2.mp ends
  have copied := (CopyMode.run_ok whole.toTyped held .deep ran).2
  cases copied with
  | freshMap => exact ⟨_, after, ran⟩

/-- The outer scope binds `x`, and the inner one binds `y`. -/
def outerAndInner : Session :=
  twoScopes.run [.act "inner" [] (.onMap (.insert "y" (.scalar (.str "second")))) {}]

theorem reachable_outerAndInner : outerAndInner.Reachable :=
  reachable_twoScopes.run _

/-- The inner scope has been copied. -/
def copiedInner : Context :=
  { outerAndInner.context with
    store.payloads := #[
      .scope ⟨⟨[("x", .scalar (.str "first"))]⟩, none⟩,
      .scope ⟨⟨[("y", .scalar (.str "second"))]⟩, some 0⟩,
      .scope ⟨⟨[("y", .scalar (.str "second"))]⟩, some 0⟩] }

/-- The inner scope keeps its `y` when that of the copy is bound again, and shares the `x` that
the copy can assign. -/
theorem detaches_scopes_outerAndInner :
    outerAndInner.Reachable ∧ outerAndInner.context.store.IsScope 1 ∧
      CopyMode.deep.run outerAndInner.context.store (.map 1) = .ok (.map 2, copiedInner.store) ∧
      ∃ last, Scene.Uses [0] ⟨2, copiedInner, []⟩ [] last ∧
        last.store.resolve? 2 "y" = some (2, Value.str "third") ∧
        last.store.resolve? 1 "y" = some (1, Value.str "second") ∧
        last.context.WritesShared 2 1 "x" 0 := by
  have isScope : outerAndInner.context.store.IsScope 1 := ⟨_, rfl⟩
  have ran : CopyMode.deep.run outerAndInner.context.store (.map 1) =
    .ok (.map 2, copiedInner.store) := rfl
  have detaches := (Reached.detaches_scopes reachable_outerAndInner isScope).1 2 _ ran
  have held : (Value.str "third").Held copiedInner.store := Value.held_scalar _ (.str "third")
  have bound : Scene.Use [0] ⟨2, copiedInner, []⟩ _ _ :=
    .write (.insert 2 "y" (Value.str "third")) ⟨⟨_, rfl⟩, held⟩ rfl
  have uses := Scene.Uses.move bound (.done _)
  have spares := detaches.throughCopy [] _ uses
  exact ⟨reachable_outerAndInner, isScope, ran, _, uses, rfl, (spares.means "y" _ rfl).1,
    spares.shared "x" 0 rfl rfl rfl⟩

end Session

end ScopedValues
