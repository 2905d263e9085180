import ScopedValues.Proofs.Scopes.Reentrancy
import ScopedValues.Proofs.Views.Reordering

/-!
Contract: assignments of different names.

Owns assignments in order, the scopes that they write, and the tables that they leave.

Main statement: in every session that can come about, the order of assignments of different
names decides nothing but the order in which a scope declares the new ones, which nothing that
is seen of values tells.
-/

set_option autoImplicit false

namespace ScopedValues

/-! ## Tables that are written in order -/

namespace Table

variable {α : Type} {entries other : List (String × α)}

/-- A table after all entries have been written to it. -/
def insertAll (table : Table α) (entries : List (String × α)) : Table α :=
  entries.foldl (fun table entry => table.insert entry.1 entry.2) table

theorem insertAll_cons (table : Table α) (entry : String × α) (entries : List (String × α)) :
    table.insertAll (entry :: entries) = (table.insert entry.1 entry.2).insertAll entries :=
  rfl

/-- The keys that a table does not have yet, in the order in which they are written. -/
def fresh (table : Table α) (entries : List (String × α)) : List String :=
  (entries.map Prod.fst).filter (· ∉ table.keys)

/-- New keys are declared at the end. -/
theorem keys_insertAll (table : Table α) (distinct : (entries.map Prod.fst).Nodup) :
    (table.insertAll entries).keys = table.keys ++ table.fresh entries := by
  induction entries generalizing table with
  | nil => exact (List.append_nil table.keys).symm
  | cons entry rest inductionHypothesis =>
      rw [List.map_cons, List.nodup_cons] at distinct
      obtain ⟨here, later⟩ := distinct
      rw [insertAll_cons, inductionHypothesis _ later, fresh, fresh, List.map_cons, keys_insert]
      split
      · next bound => rw [List.filter_cons_of_neg (by simpa using bound)]
      · next unbound =>
          rw [List.filter_cons_of_pos (by simpa using unbound), List.append_assoc]
          refine congrArg (table.keys ++ entry.1 :: ·) (List.filter_congr fun key member => ?_)
          have different : key ≠ entry.1 := fun same => here (same ▸ member)
          simp [different]

theorem get?_insertAll_of_not_mem (table : Table α) {key : String}
    (absent : key ∉ entries.map Prod.fst) :
    (table.insertAll entries).get? key = table.get? key := by
  induction entries generalizing table with
  | nil => rfl
  | cons entry rest inductionHypothesis =>
      rw [List.map_cons, List.mem_cons, not_or] at absent
      rw [insertAll_cons, inductionHypothesis _ absent.2, get?_insert_of_ne _ _ _ _ absent.1]

theorem get?_insertAll_of_mem (table : Table α) (distinct : (entries.map Prod.fst).Nodup)
    {key : String} {value : α} (member : (key, value) ∈ entries) :
    (table.insertAll entries).get? key = some value := by
  induction entries generalizing table with
  | nil => cases member
  | cons entry rest inductionHypothesis =>
      rw [List.map_cons, List.nodup_cons] at distinct
      rw [insertAll_cons]
      rcases List.mem_cons.mp member with rfl | later
      · rw [get?_insertAll_of_not_mem _ distinct.1, get?_insert_self]
      · exact inductionHypothesis _ distinct.2 later

/-- What keys mean does not depend on the order in which they are written. -/
theorem get?_insertAll_of_perm (table : Table α) (distinct : (entries.map Prod.fst).Nodup)
    (perm : entries.Perm other) (key : String) :
    (table.insertAll entries).get? key = (table.insertAll other).get? key := by
  have names : (entries.map Prod.fst).Perm (other.map Prod.fst) := perm.map Prod.fst
  by_cases written : key ∈ entries.map Prod.fst
  · obtain ⟨⟨key, value⟩, member, rfl⟩ := List.mem_map.mp written
    rw [get?_insertAll_of_mem table distinct member,
      get?_insertAll_of_mem table (names.nodup distinct) (perm.mem_iff.mp member)]
  · rw [get?_insertAll_of_not_mem table written,
      get?_insertAll_of_not_mem table (mt names.mem_iff.mpr written)]

theorem fresh_perm (table : Table α) (perm : entries.Perm other) :
    (table.fresh entries).Perm (table.fresh other) :=
  (perm.map Prod.fst).filter _

/-- Nor does the table, unless it is for the order of two new keys. -/
theorem insertAll_eq_of_perm (table : Table α) (keysDistinct : table.keys.Nodup)
    (distinct : (entries.map Prod.fst).Nodup) (perm : entries.Perm other)
    (few : (table.fresh entries).length ≤ 1) : table.insertAll entries = table.insertAll other := by
  have freshToo := table.fresh_perm perm
  have fresh : table.fresh entries = table.fresh other := by
    match listed : table.fresh entries with
    | [] => rw [listed] at freshToo; exact freshToo.nil_eq
    | [key] => rw [listed] at freshToo; exact List.singleton_perm.mp freshToo
    | _ :: _ :: _ => simp [listed] at few
  have keys : (table.insertAll entries).keys = (table.insertAll other).keys := by
    rw [keys_insertAll table distinct, keys_insertAll table ((perm.map _).nodup distinct), fresh]
  refine eq_of_keys ?_ keys (table.get?_insertAll_of_perm distinct perm)
  rw [keys_insertAll table distinct, List.nodup_append]
  refine ⟨keysDistinct, distinct.filter _, fun key old new declared same => ?_⟩
  have unbound := (List.mem_filter.mp declared).2
  exact of_decide_eq_true unbound (same ▸ old)

end Table

/-! ## Assignments -/

/-- A value that is assigned to a key through a scope. -/
structure Assignment where
  scope : Addr
  key : String
  value : Value

namespace Assignment

open Store

variable {start : Store} {assignments : List Assignment}

def run (assignment : Assignment) : ContextM Unit :=
  Context.assign assignment.scope assignment.key assignment.value

def runAll (assignments : List Assignment) : ContextM Unit :=
  assignments.forM run

/-- The scope that is written. -/
def target (assignment : Assignment) (store : Store) : Addr :=
  store.writer assignment.scope assignment.key

/-- An assignment is made through a scope, and its value is there. -/
structure Fits (store : Store) (assignment : Assignment) : Prop where
  isScope : store.IsScope assignment.scope
  held : assignment.value.Held store

/-- The search for the key comes to a scope that is lent out. -/
def HeldUp (assignment : Assignment) (store : Store) : Prop :=
  store.Blocked store.lent assignment.scope assignment.key

theorem not_heldUp_of_idle {store : Store} (idle : store.lent = []) (assignment : Assignment) :
    ¬ assignment.HeldUp store := by
  rw [HeldUp, idle]
  exact not_blocked_of_nothing_held store _ _

theorem Fits.retain {before after : Store} {assignment : Assignment}
    (fits : assignment.Fits before) (retains : before.Retains after) : assignment.Fits after :=
  ⟨retains.scopes _ fits.isScope, fits.held.retain retains⟩

/-! ## The storage that is left -/

/-- Storage after assignments that write where their keys resolved to in `start`. -/
def storedAll (start : Store) (assignments : List Assignment) (store : Store) : Store :=
  assignments.foldl (fun store assignment =>
    store.setEntry (assignment.target start) assignment.key assignment.value) store

theorem storedAll_cons (start store : Store) (assignment : Assignment)
    (assignments : List Assignment) :
    storedAll start (assignment :: assignments) store = storedAll start assignments
      (store.setEntry (assignment.target start) assignment.key assignment.value) :=
  rfl

/-- What assignments write to the scope at `a`. -/
def entriesAt (start : Store) (a : Addr) (assignments : List Assignment) : List (String × Value) :=
  (assignments.filter (·.target start = a)).map fun assignment => (assignment.key, assignment.value)

theorem entriesAt_perm {other : List Assignment} (a : Addr) (perm : assignments.Perm other) :
    (entriesAt start a assignments).Perm (entriesAt start a other) :=
  (perm.filter _).map _

theorem nodup_entriesAt (start : Store) (a : Addr)
    (distinct : (assignments.map Assignment.key).Nodup) :
    ((entriesAt start a assignments).map Prod.fst).Nodup := by
  rw [entriesAt, List.map_map]
  exact distinct.sublist (List.filter_sublist.map Assignment.key)

variable {store : Store}

theorem rebinds_storedAll
    (targets : ∀ assignment ∈ assignments, store.IsScope (assignment.target start)) :
    store.Rebinds (storedAll start assignments store) := by
  induction assignments generalizing store with
  | nil => exact .refl store
  | cons assignment rest inductionHypothesis =>
      rw [List.forall_mem_cons] at targets
      have written := rebinds_setEntry targets.1 assignment.key assignment.value
      refine written.trans (inductionHypothesis fun next member => ?_)
      exact (written.scopes _).mpr (targets.2 next member)

/-- The tables that are left are those that have been written in order. -/
theorem bindings_storedAll
    (targets : ∀ assignment ∈ assignments, store.IsScope (assignment.target start)) (a : Addr) :
    ((storedAll start assignments store).scope a).bindings =
      (store.scope a).bindings.insertAll (entriesAt start a assignments) := by
  induction assignments generalizing store with
  | nil => rfl
  | cons assignment rest inductionHypothesis =>
      rw [List.forall_mem_cons] at targets
      obtain ⟨isScope, later⟩ := targets
      have written := rebinds_setEntry isScope assignment.key assignment.value
      rw [storedAll_cons, inductionHypothesis fun next member =>
        (written.scopes _).mpr (later next member)]
      by_cases here : assignment.target start = a
      · subst here
        rw [entriesAt, entriesAt, List.filter_cons_of_pos (by simp), List.map_cons,
          Table.insertAll_cons, setEntry, scope_setBindings_self _ _ _ isScope.lt_size]
      · rw [entriesAt, entriesAt, List.filter_cons_of_neg (by simpa using here), setEntry,
          scope_setBindings_of_ne _ _ a _ (Ne.symm here)]

/-- Where a key is written, and what holds up the search for it, is for no scope changed by
assignments of other names. -/
theorem search_storedAll
    (targets : ∀ assignment ∈ assignments, store.IsScope (assignment.target start))
    (held : List Addr) (a : Addr) {key : String} (absent : key ∉ assignments.map Assignment.key) :
    (storedAll start assignments store).writer a key = store.writer a key ∧
      ((storedAll start assignments store).Blocked held a key ↔ store.Blocked held a key) := by
  induction assignments generalizing store with
  | nil => exact ⟨rfl, Iff.rfl⟩
  | cons assignment rest inductionHypothesis =>
      rw [List.forall_mem_cons] at targets
      obtain ⟨isScope, later⟩ := targets
      rw [List.map_cons, List.mem_cons, not_or] at absent
      have write := writesKey_setEntry isScope assignment.key assignment.value
      have written := rebinds_setEntry isScope assignment.key assignment.value
      obtain ⟨writer, blocked⟩ := inductionHypothesis
        (fun next member => (written.scopes _).mpr (later next member)) absent.2
      rw [storedAll_cons, writer, blocked]
      exact ⟨write.writer_other a absent.1, write.blocked_other held a absent.1⟩

/-! ## Runs -/

section Runs

variable {context : Context} {assignment : Assignment}

theorem Fits.isScope_target (fits : assignment.Fits store) (sound : store.Sound) :
    store.IsScope (assignment.target store) :=
  isScope_writer sound fits.isScope assignment.key

/-- An assignment that is not held up writes one entry. -/
theorem run_eq (sound : context.store.Sound) (free : ¬ assignment.HeldUp context.store) :
    ∃ log, assignment.run context = (.ok (), { context with
      store := context.store.setEntry (assignment.target context.store) assignment.key
        assignment.value
      log }) :=
  ⟨_, Context.assign_eq (clear_of_not_blocked sound free) assignment.value⟩

/-- After an assignment, those of other names write where they would have written before it, and
are held up where they would have been. -/
theorem search_run (isScope : store.IsScope (assignment.target start)) {rest : List Assignment}
    (distinct : assignment.key ∉ rest.map Assignment.key) :
    ∀ next ∈ rest,
      next.target (store.setEntry (assignment.target start) assignment.key assignment.value) =
          next.target store ∧
        (next.HeldUp (store.setEntry (assignment.target start) assignment.key assignment.value) ↔
          next.HeldUp store) := by
  intro next member
  have write := writesKey_setEntry isScope assignment.key assignment.value
  have different : next.key ≠ assignment.key := fun same =>
    distinct (same ▸ List.mem_map_of_mem member)
  exact ⟨write.writer_other next.scope different,
    write.blocked_other store.lent next.scope different⟩

/-- Assignments of different names all write where their keys resolved to before the first. -/
theorem runAll_eq (sound : context.store.Sound)
    (fits : ∀ assignment ∈ assignments, assignment.Fits context.store)
    (distinct : (assignments.map Assignment.key).Nodup)
    (free : ∀ assignment ∈ assignments, ¬ assignment.HeldUp context.store)
    (settled : ∀ assignment ∈ assignments,
      assignment.target context.store = assignment.target start) :
    ∃ log, runAll assignments context = (.ok (), { context with
        store := storedAll start assignments context.store
        log }) ∧ context.store.Develops (storedAll start assignments context.store) := by
  -- The context moves on and `start` does not: that the targets are settled is the invariant.
  induction assignments generalizing context with
  | nil => exact ⟨context.log, rfl, .refl sound⟩
  | cons assignment rest inductionHypothesis =>
      rw [List.forall_mem_cons] at fits free settled
      rw [List.map_cons, List.nodup_cons] at distinct
      obtain ⟨log, ran⟩ := run_eq sound free.1
      have isScope := fits.1.isScope_target sound
      rw [settled.1] at ran isScope
      have develops := develops_setEntry sound isScope assignment.key fits.1.held
      have search := search_run isScope distinct.1
      obtain ⟨last, ranAll, developsAll⟩ := @inductionHypothesis
        { context with
          store := context.store.setEntry (assignment.target start) assignment.key assignment.value
          log }
        develops.sound (fun next member => (fits.2 next member).retain develops.grows.toRetains)
        distinct.2 (fun next member => mt (search next member).2.mp (free.2 next member))
        fun next member => (search next member).1.trans (settled.2 next member)
      exact ⟨last, (Discipline.bind_of_ok ran).trans ranAll, develops.trans developsAll⟩

/-- Assignments of different names come to a conflict, in whatever order, if one is held up. -/
theorem runAll_of_heldUp (sound : context.store.Sound)
    (fits : ∀ assignment ∈ assignments, assignment.Fits context.store)
    (distinct : (assignments.map Assignment.key).Nodup)
    (heldUp : ∃ assignment ∈ assignments, assignment.HeldUp context.store) :
    (runAll assignments context).1 = .error .conflict := by
  induction assignments generalizing context with
  | nil => simp at heldUp
  | cons assignment rest inductionHypothesis =>
      rw [List.forall_mem_cons] at fits
      rw [List.map_cons, List.nodup_cons] at distinct
      by_cases here : assignment.HeldUp context.store
      · have stopped := Context.assign_of_blocked here assignment.value
        exact congrArg Prod.fst (Discipline.bind_of_error stopped)
      · obtain ⟨log, ran⟩ := run_eq sound here
        have isScope := fits.1.isScope_target sound
        have develops := develops_setEntry sound isScope assignment.key fits.1.held
        rw [List.exists_mem_cons_iff] at heldUp
        obtain ⟨next, member, later⟩ := heldUp.resolve_left here
        refine (congrArg Prod.fst (Discipline.bind_of_ok ran)).trans
          (inductionHypothesis develops.sound
            (fun next member => (fits.2 next member).retain develops.grows.toRetains) distinct.2
            ⟨next, member, (search_run isScope distinct.1 next member).2.mpr later⟩)

end Runs

/-! ## Assignments in another order -/

/-- Whatever has been assigned before it, an assignment writes its entry where its key resolved
to at the start. -/
def KeepTargets (start : Context) (assignments : List Assignment) : Prop :=
  ∀ earlier assignment later, assignments = earlier ++ assignment :: later →
    ∃ middle after, runAll earlier start = (.ok (), middle) ∧
      assignment.run middle = (.ok (), after) ∧
      assignment.target middle.store = assignment.target start.store ∧
      after.store =
        middle.store.setEntry (assignment.target start.store) assignment.key assignment.value

/-- What comes of assignments that are made in order. -/
structure Leave (assignments : List Assignment) (start after : Context) : Prop where
  ran : runAll assignments start = (.ok (), after)
  targets : KeepTargets start assignments
  rest : ∃ log, after = { start with store := after.store, log }
  sound : after.store.Sound
  rebinds : start.store.Rebinds after.store
  tables : ∀ a, (after.store.scope a).bindings =
    (start.store.scope a).bindings.insertAll (entriesAt start.store a assignments)

/-- The keys that assignments declare in the scope at `a`, in order. -/
def declared (start : Store) (a : Addr) (assignments : List Assignment) : List String :=
  (start.scope a).bindings.fresh (entriesAt start a assignments)

section Leave

variable {context : Context}

theorem exists_leave (sound : context.store.Sound)
    (fits : ∀ assignment ∈ assignments, assignment.Fits context.store)
    (distinct : (assignments.map Assignment.key).Nodup)
    (free : ∀ assignment ∈ assignments, ¬ assignment.HeldUp context.store) :
    ∃ after, Leave assignments context after := by
  have targets : ∀ assignment ∈ assignments,
      context.store.IsScope (assignment.target context.store) :=
    fun assignment member => (fits assignment member).isScope_target sound
  obtain ⟨log, ran, develops⟩ := runAll_eq sound fits distinct free fun _ _ => rfl
  refine ⟨_, ran, ?_, ⟨log, rfl⟩, develops.sound, rebinds_storedAll targets,
    bindings_storedAll targets⟩
  -- What has been assigned before is a run of its own, of other names than the one that follows.
  rintro earlier assignment later rfl
  rw [List.map_append, List.map_cons, List.nodup_append] at distinct
  rw [List.forall_mem_append, List.forall_mem_cons] at fits free targets
  obtain ⟨logged, ranEarlier, developsEarlier⟩ :=
    runAll_eq sound fits.1 distinct.1 free.1 fun _ _ => rfl
  let middle : Context :=
    { context with store := storedAll context.store earlier context.store, log := logged }
  obtain ⟨target, heldUp⟩ := search_storedAll targets.1 context.store.lent assignment.scope
    fun member => distinct.2.2 _ member _ List.mem_cons_self rfl
  have lent : middle.store.lent = context.store.lent := developsEarlier.grows.lent
  have freeHere : ¬ assignment.HeldUp middle.store := by
    rw [HeldUp, lent]
    exact mt heldUp.mp free.2.1
  obtain ⟨last, ranHere⟩ := run_eq developsEarlier.sound freeHere
  exact ⟨middle, _, ranEarlier, ranHere, target, congrArg
    (middle.store.setEntry · assignment.key assignment.value) target⟩

/-- Every scope keeps its declaration order, and declares the new keys at the end. -/
theorem Leave.keys {after : Context} (leave : Leave assignments context after)
    (distinct : (assignments.map Assignment.key).Nodup) (a : Addr) :
    (after.store.scope a).bindings.keys =
      (context.store.scope a).bindings.keys ++ declared context.store a assignments := by
  rw [leave.tables, Table.keys_insertAll _ (nodup_entriesAt _ a distinct), declared]

end Leave

/-- Two orders of assignments come to the same, up to the declaration orders of new keys. -/
structure Interchange (start : Context) (first second : List Assignment) (one other : Context) :
    Prop where
  leave : Leave first start one
  leaveToo : Leave second start other
  /-- Every scope has the same bindings. -/
  bindings : ∀ a key,
    (one.store.scope a).bindings.get? key = (other.store.scope a).bindings.get? key
  keys : ∀ a, (one.store.scope a).bindings.keys =
    (start.store.scope a).bindings.keys ++ declared start.store a first
  keysToo : ∀ a, (other.store.scope a).bindings.keys =
    (start.store.scope a).bindings.keys ++ declared start.store a second
  /-- A scope declares the same new keys, in one order or another. -/
  sameKeys : ∀ a, (declared start.store a first).Perm (declared start.store a second)
  scope : ∀ a, (declared start.store a first).length ≤ 1 →
    other.store.scope a = one.store.scope a
  store : (∀ a, (declared start.store a first).length ≤ 1) → other.store = one.store
  reorders : one.store.Reorders other.store
  held : ∀ x : Value, x.Held one.store ↔ x.Held start.store
  untouched : start.store.lent = [] → ∀ x : Value, x.Untouched one.store
  looksLike : one.store.LooksLike other.store

theorem Leave.interchange {start one other : Context} {first second : List Assignment}
    (leave : Leave first start one) (leaveToo : Leave second start other)
    (sound : start.store.Sound) (perm : first.Perm second)
    (distinct : (first.map Assignment.key).Nodup) : Interchange start first second one other := by
  have distinctToo : (second.map Assignment.key).Nodup := (perm.map _).nodup distinct
  have rebinds : one.store.Rebinds other.store := leave.rebinds.symm.trans leaveToo.rebinds
  have bindings : ∀ a key,
      (one.store.scope a).bindings.get? key = (other.store.scope a).bindings.get? key := by
    intro a key
    rw [leave.tables, leaveToo.tables]
    exact Table.get?_insertAll_of_perm _ (nodup_entriesAt _ a distinct) (entriesAt_perm a perm) key
  have tables : ∀ a, (declared start.store a first).length ≤ 1 →
      (other.store.scope a).bindings = (one.store.scope a).bindings := by
    intro a few
    rw [leave.tables, leaveToo.tables]
    exact (Table.insertAll_eq_of_perm _ (sound.keys a) (nodup_entriesAt _ a distinct)
      (entriesAt_perm a perm) few).symm
  have reorders : one.store.Reorders other.store :=
    { rebinds with
      entries := fun a => (Table.entries_perm (leave.sound.keys a) (leaveToo.sound.keys a)
        (bindings a)).symm }
  exact {
    leave, leaveToo, bindings, reorders
    keys := leave.keys distinct
    keysToo := leaveToo.keys distinctToo
    sameKeys := fun a => Table.fresh_perm _ (entriesAt_perm a perm)
    scope := fun a few => congrArg₂ Scope.mk (tables a few) (rebinds.parents a)
    held := fun _ => ⟨fun held => held.retain leave.rebinds.symm.retains,
      fun held => held.retain leave.rebinds.retains⟩
    store := fun few => rebinds.eq_of_bindings fun a => tables a (few a)
    untouched := fun idle => Value.untouched_of_idle (leave.rebinds.lent.trans idle)
    looksLike := reorders.looksLike leave.sound leaveToo.sound }

end Assignment

/-- In a session that can come about, assignments of different names can be made in any order,
unless one is held up, which it is in every order; and outside all changes in place none is. -/
theorem Session.Reached.interchanges_assignments {session : Session} {frames : List Frame}
    (reached : session.Reached frames) {first second : List Assignment}
    (perm : first.Perm second) (distinct : (first.map Assignment.key).Nodup)
    (fits : ∀ assignment ∈ first, assignment.Fits session.context.store) :
    ((∀ assignment ∈ first, ¬ assignment.HeldUp session.context.store) →
        ∃ one other, Assignment.Interchange session.context first second one other) ∧
      ((∃ assignment ∈ first, assignment.HeldUp session.context.store) →
        (Assignment.runAll first session.context).1 = .error .conflict ∧
          (Assignment.runAll second session.context).1 = .error .conflict) ∧
      (frames = [] → session.context.store.lent = [] ∧
        ∀ assignment ∈ first, ¬ assignment.HeldUp session.context.store) := by
  have sound := reached.stands.sound.context.store
  have fitsToo : ∀ assignment ∈ second, assignment.Fits session.context.store :=
    fun assignment member => fits assignment (perm.mem_iff.mpr member)
  have distinctToo : (second.map Assignment.key).Nodup := (perm.map Assignment.key).nodup distinct
  refine ⟨fun free => ?_, fun ⟨assignment, member, heldUp⟩ => ?_, ?_⟩
  · obtain ⟨one, leave⟩ := Assignment.exists_leave sound fits distinct free
    obtain ⟨other, leaveToo⟩ := Assignment.exists_leave sound fitsToo distinctToo
      fun assignment member => free assignment (perm.mem_iff.mpr member)
    exact ⟨one, other, leave.interchange leaveToo sound perm distinct⟩
  · exact ⟨Assignment.runAll_of_heldUp sound fits distinct ⟨assignment, member, heldUp⟩,
      Assignment.runAll_of_heldUp sound fitsToo distinctToo
        ⟨assignment, perm.mem_iff.mp member, heldUp⟩⟩
  · rintro rfl
    exact ⟨reached.stands.lent, fun assignment _ =>
      Assignment.not_heldUp_of_idle reached.stands.lent assignment⟩

/-- Assignments through the inner scope, which binds none of the keys, and through the outer one,
which binds `x`. -/
def Session.assignments : List Assignment := [
  ⟨1, "x", .str "second"⟩, ⟨1, "y", .str "third"⟩, ⟨0, "w", .map 1⟩, ⟨1, "z", .str "fourth"⟩]

/-- Backwards, the inner scope declares `y` and `z` in the other order, and `x` is that of the
outer one all the same. -/
theorem Session.interchanges_assignments_twoScopes :
    twoScopes.Reachable ∧ ∃ one other,
      Assignment.Interchange twoScopes.context assignments assignments.reverse one other ∧
        (one.store.scope 1).bindings.keys = ["y", "z"] ∧
        (other.store.scope 1).bindings.keys = ["z", "y"] ∧
        one.store.scope 0 = other.store.scope 0 ∧
        (one.store.scope 0).bindings.get? "x" = some (.str "second") := by
  have text (letters : String) : (Value.str letters).Held twoScopes.context.store :=
    Value.held_scalar _ (.str letters)
  have inner : (Value.map 1).Held twoScopes.context.store := (Value.held_map _ 1).mpr ⟨_, rfl⟩
  have fits : ∀ assignment ∈ assignments, assignment.Fits twoScopes.context.store := by
    intro assignment member
    simp only [assignments, List.mem_cons, List.not_mem_nil, or_false] at member
    rcases member with rfl | rfl | rfl | rfl
    · exact ⟨⟨_, rfl⟩, text "second"⟩
    · exact ⟨⟨_, rfl⟩, text "third"⟩
    · exact ⟨⟨_, rfl⟩, inner⟩
    · exact ⟨⟨_, rfl⟩, text "fourth"⟩
  have reversed : assignments.Perm assignments.reverse := (List.reverse_perm _).symm
  obtain ⟨interchanged, _, idle⟩ :=
    Reached.interchanges_assignments reachable_twoScopes reversed (by decide) fits
  obtain ⟨one, other, interchange⟩ := interchanged (idle rfl).2
  have few : (Assignment.declared twoScopes.context.store 0 assignments).length ≤ 1 := by decide
  refine ⟨reachable_twoScopes, one, other, interchange, (interchange.keys 1).trans rfl,
    (interchange.keysToo 1).trans rfl, (interchange.scope 0 few).symm, ?_⟩
  rw [interchange.leave.tables]
  rfl

end ScopedValues
