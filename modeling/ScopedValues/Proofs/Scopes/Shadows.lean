import ScopedValues.Proofs.Scopes.Reentrancy

/-!
Contract: a binding that is made for a while.

Owns the edits of bindings with their answers, runs of edits, and storage without one binding.

Main statement: in every session that can come about, a key that a scope does not bind can be
bound there before a run of edits of other keys and erased after it; the edits answer what they
would without it, and leave what they would leave.
-/

set_option autoImplicit false

namespace ScopedValues

open Store

/-! ## Edits -/

/-- What an edit does with the binding of its key. -/
inductive Edit.Way where
  | insert (value : Value)
  | erase
  | assign (value : Value)
  /-- A change in place that takes out what is there and leaves a value. -/
  | overwrite (value : Value)

/-- An operation on the binding of a key, made through one scope. -/
structure Edit where
  scope : Addr
  key : String
  way : Edit.Way

namespace Edit

/-- An edit answers the value that it takes out or replaces; assignment does not. -/
def run (edit : Edit) : ContextM (Option Value) :=
  match edit.way with
  | .insert value => Context.onStore (·.insert edit.scope edit.key value)
  | .erase => Context.onStore (·.erase edit.scope edit.key)
  | .assign value => do
      Context.assign edit.scope edit.key value
      return none
  | .overwrite value =>
      return some (← Context.withEntry edit.scope edit.key fun old context => (old, value, context))

/-- The answers of edits that are made in order. -/
def runAll (edits : List Edit) : ContextM (List (Option Value)) :=
  edits.mapM run

section RunAll

variable {edit : Edit} {edits : List Edit} {before middle after : Context} {fault : Fault}

theorem runAll_cons_of_ok {answer : Option Value} (ran : edit.run before = (.ok answer, middle)) :
    runAll (edit :: edits) before =
      ((runAll edits middle).1.map (answer :: ·), (runAll edits middle).2) := by
  rw [runAll, List.mapM_cons, Discipline.bind_of_ok ran]
  rcases rest : runAll edits middle with ⟨fault | answers, last⟩
  · exact Discipline.bind_of_error rest
  · exact Discipline.bind_of_ok rest

theorem runAll_cons_of_error (ran : edit.run before = (.error fault, after)) :
    runAll (edit :: edits) before = (.error fault, after) := by
  rw [runAll, List.mapM_cons]
  exact Discipline.bind_of_error ran

/-- An edit after all the others. -/
theorem runAll_concat_of_ok {answers : List (Option Value)} {answer : Option Value}
    (ranAll : runAll edits before = (.ok answers, middle))
    (ran : edit.run middle = (.ok answer, after)) :
    runAll (edits ++ [edit]) before = (.ok (answers ++ [answer]), after) := by
  rw [runAll, List.mapM_append]
  exact (Discipline.bind_of_ok ranAll).trans (Discipline.bind_of_ok (runAll_cons_of_ok ran))

theorem runAll_append_of_error {further : List Edit}
    (ranAll : runAll edits before = (.error fault, after)) :
    runAll (edits ++ further) before = (.error fault, after) := by
  rw [runAll, List.mapM_append]
  exact Discipline.bind_of_error ranAll

end RunAll

/-- An edit is made through a scope, and the value that it leaves is there. -/
structure Fits (store : Store) (edit : Edit) : Prop where
  isScope : store.IsScope edit.scope
  held : ∀ value, edit.way = .insert value ∨ edit.way = .assign value ∨
    edit.way = .overwrite value → value.Held store

theorem Fits.retain {before after : Store} {edit : Edit} (fits : edit.Fits before)
    (retains : before.Retains after) : edit.Fits after where
  isScope := retains.scopes edit.scope fits.isScope
  held value leaves := (fits.held value leaves).retain retains

/-! ## What an edit does -/

/-- The scope whose table is changed. -/
def target (edit : Edit) (store : Store) : Addr :=
  match edit.way with
  | .insert _ => edit.scope
  | .erase => edit.scope
  | .assign _ => store.writer edit.scope edit.key
  | .overwrite _ => store.writer edit.scope edit.key

def change (edit : Edit) (table : Table Value) : Table Value :=
  match edit.way with
  | .insert value => table.insert edit.key value
  | .erase => table.erase edit.key
  | .assign value => table.insert edit.key value
  | .overwrite value => table.insert edit.key value

def answer (edit : Edit) (table : Table Value) : Option Value :=
  match edit.way with
  | .insert _ => table.get? edit.key
  | .erase => table.get? edit.key
  | .assign _ => none
  | .overwrite _ => some ((table.get? edit.key).getD Value.none)

/-- The log after the edit. -/
def logged (edit : Edit) (context : Context) : List Event :=
  match edit.way with
  | .assign _ =>
      if (context.store.nearest? edit.scope edit.key).isNone then
        context.logged (.assignmentDeclared edit.key)
      else context.log
  | _ => context.log

/-- Storage after the edit. -/
def stored (edit : Edit) (store : Store) : Store :=
  store.setBindings (edit.target store) (edit.change (store.scope (edit.target store)).bindings)

variable {context : Context} {edit : Edit}

theorem isScope_target {store : Store} (sound : store.Sound) (isScope : store.IsScope edit.scope) :
    store.IsScope (edit.target store) := by
  unfold target
  split
  · exact isScope
  · exact isScope
  · exact isScope_writer sound isScope edit.key
  · exact isScope_writer sound isScope edit.key

/-- The edit comes to a scope that is lent out before it has changed anything. -/
def HeldUp (edit : Edit) (store : Store) : Prop :=
  match edit.way with
  | .insert _ => edit.scope ∈ store.lent
  | .erase => edit.scope ∈ store.lent
  | .assign _ => store.Blocked store.lent edit.scope edit.key
  | .overwrite _ => store.Blocked store.lent edit.scope edit.key

theorem not_heldUp_of_idle {store : Store} (idle : store.lent = []) (edit : Edit) :
    ¬ edit.HeldUp store := by
  unfold HeldUp
  rw [idle]
  split
  · exact List.not_mem_nil
  · exact List.not_mem_nil
  · exact not_blocked_of_nothing_held store _ _
  · exact not_blocked_of_nothing_held store _ _

/-- An edit that is not held up changes one table and answers from it. -/
theorem run_eq (sound : context.store.Sound) (isScope : context.store.IsScope edit.scope)
    (free : ¬ edit.HeldUp context.store) :
    edit.run context =
      (.ok (edit.answer (context.store.scope (edit.target context.store)).bindings),
        { context with store := edit.stored context.store, log := edit.logged context }) := by
  obtain ⟨scope, key, way⟩ := edit
  cases way with
  | insert value => exact Context.onStore_eq_ok (insert_of_free free key value)
  | erase => exact Context.onStore_eq_ok (erase_of_free free key)
  | assign value =>
      exact Discipline.bind_of_ok (Context.assign_eq (clear_of_not_blocked sound free) value)
  | overwrite value =>
      have entered := Context.withEntry_eq (entry_eq (clear_of_not_blocked sound free))
        fun old context => (old, value, context)
      rw [Table.get?_declare_self] at entered
      refine (Discipline.bind_of_ok entered).trans ?_
      have writerIsScope := isScope_writer sound isScope key
      exact congrArg (fun store => (_, { context with store }))
        (@setEntry_declare _ _ key writerIsScope Value.none value)

theorem run_of_heldUp (heldUp : edit.HeldUp context.store) :
    edit.run context = (.error .conflict, context) := by
  obtain ⟨scope, key, way⟩ := edit
  cases way with
  | insert value =>
      have lent : scope ∈ context.store.lent := heldUp
      have failed : context.store.insert scope key value = .error .conflict := by
        rw [Store.insert, bindings_of_lent lent]
        rfl
      exact Discipline.bind_of_error ((Context.ask_eq _ _).trans (congrArg (·, context) failed))
  | erase =>
      have lent : scope ∈ context.store.lent := heldUp
      have failed : context.store.erase scope key = .error .conflict := by
        rw [Store.erase, bindings_of_lent lent]
        rfl
      exact Discipline.bind_of_error ((Context.ask_eq _ _).trans (congrArg (·, context) failed))
  | assign value => exact Discipline.bind_of_error (Context.assign_of_blocked heldUp value)
  | overwrite value => exact Discipline.bind_of_error (Context.withEntry_of_blocked heldUp _)

theorem develops_stored {store : Store} (sound : store.Sound) (fits : edit.Fits store) :
    store.Develops (edit.stored store) := by
  have isScope := isScope_target sound fits.isScope
  obtain ⟨scope, key, way⟩ := edit
  cases way with
  | insert value => exact develops_setEntry sound isScope key (fits.held value (.inl rfl))
  | erase =>
      refine develops_setBindings sound isScope (fun entry member => ?_)
        (Table.nodup_keys_erase _ key (sound.keys scope))
      exact sound.entry_held scope entry (Table.mem_erase member)
  | assign value =>
      exact develops_setEntry sound isScope key (fits.held value (.inr (.inl rfl)))
  | overwrite value =>
      exact develops_setEntry sound isScope key (fits.held value (.inr (.inr rfl)))

theorem writesKey_stored {store : Store} (sound : store.Sound)
    (isScope : store.IsScope edit.scope) :
    WritesKey store (edit.stored store) (edit.target store) edit.key := by
  refine writesKey_setBindings (isScope_target sound isScope) ?_
  unfold change
  split
  · exact Table.otherEntries_insert _ _ _
  · exact Table.otherEntries_erase _ _
  · exact Table.otherEntries_insert _ _ _
  · exact Table.otherEntries_insert _ _ _

/-! ## Edits of other keys -/

section Others

variable {key : String}

theorem change_erase (different : edit.key ≠ key) (table : Table Value) :
    edit.change (table.erase key) = (edit.change table).erase key := by
  unfold change
  split
  · exact (Table.erase_insert_of_ne table _ different).symm
  · exact Table.erase_erase_of_ne table (Ne.symm different)
  · exact (Table.erase_insert_of_ne table _ different).symm
  · exact (Table.erase_insert_of_ne table _ different).symm

theorem answer_erase (different : edit.key ≠ key) (table : Table Value) :
    edit.answer (table.erase key) = edit.answer table := by
  unfold answer
  rw [Table.get?_erase_of_ne table key edit.key different]

end Others

end Edit

/-! ## Storage without a binding -/

namespace Store

variable {store : Store} {a b : Addr} {key : String}

/-- Storage without the binding of `key` in the scope at `a`. -/
def without (store : Store) (a : Addr) (key : String) : Store :=
  store.setBindings a ((store.scope a).bindings.erase key)

theorem develops_without (sound : store.Sound) (isScope : store.IsScope a) (key : String) :
    store.Develops (store.without a key) := by
  have fits : Edit.Fits store ⟨a, key, .erase⟩ := ⟨isScope, fun _ leaves => by simp at leaves⟩
  exact Edit.develops_stored sound fits

theorem writesKey_without (isScope : store.IsScope a) (key : String) :
    WritesKey store (store.without a key) a key :=
  writesKey_setBindings isScope (Table.otherEntries_erase _ key)

/-- Changes of different tables can be made in either order. -/
theorem setBindings_comm (store : Store) (different : a ≠ b) (first second : Table Value) :
    (store.setBindings a first).setBindings b second =
      (store.setBindings b second).setBindings a first := by
  rw [setBindings, scope_setBindings_of_ne store a b first (Ne.symm different),
    setBindings.eq_1 (store.setBindings b second),
    scope_setBindings_of_ne store b a second different]
  exact congrArg (Store.mk · store.lent) (Array.setIfInBounds_comm _ _ different)

/-- A change of tables that a binding is no part of can be made without it. -/
theorem setBindings_without (isScope : store.IsScope a) {change : Table Value → Table Value}
    (apart : ∀ table : Table Value, change (table.erase key) = (change table).erase key)
    (b : Addr) :
    (store.without a key).setBindings b (change ((store.without a key).scope b).bindings) =
      (store.setBindings b (change (store.scope b).bindings)).without a key := by
  unfold without
  by_cases same : b = a
  · subst same
    rw [scope_setBindings_self store b _ isScope.lt_size,
      scope_setBindings_self store b _ isScope.lt_size, setBindings_setBindings,
      setBindings_setBindings, apart]
  · rw [scope_setBindings_of_ne store a b _ same,
      scope_setBindings_of_ne store b a _ (Ne.symm same), setBindings_comm store (Ne.symm same)]

/-- A binding that was not there before is gone again. -/
theorem without_setEntry (isScope : store.IsScope a)
    (unbound : (store.scope a).bindings.get? key = none) (value : Value) :
    (store.setEntry a key value).without a key = store := by
  rw [without, setEntry, scope_setBindings_self store a _ isScope.lt_size, setBindings_setBindings,
    Table.erase_insert_of_unbound value unbound, setBindings_bindings isScope]

end Store

/-! ## Runs beside a binding -/

/-- The state without a binding. -/
def Context.without (context : Context) (a : Addr) (key : String) : Context :=
  { context with store := context.store.without a key }

/-- `key` is bound in the scope at `a`, which is not lent out. -/
structure Context.Shadowed (context : Context) (a : Addr) (key : String) (value : Value) :
    Prop where
  sound : context.store.Sound
  free : a ∉ context.store.lent
  isScope : context.store.IsScope a
  bound : (context.store.scope a).bindings.get? key = some value

namespace Edit

variable {context : Context} {edit : Edit} {a : Addr} {key : String}

theorem target_without (isScope : context.store.IsScope a) (different : edit.key ≠ key) :
    edit.target (context.store.without a key) = edit.target context.store := by
  unfold target
  rw [(writesKey_without isScope key).writer_other edit.scope different]

theorem logged_without (isScope : context.store.IsScope a) (different : edit.key ≠ key) :
    edit.logged (context.without a key) = edit.logged context := by
  unfold logged Context.without
  rw [(writesKey_without isScope key).nearest?_other edit.scope different]
  rfl

theorem stored_without (isScope : context.store.IsScope a) (different : edit.key ≠ key) :
    edit.stored (context.store.without a key) = (edit.stored context.store).without a key := by
  unfold stored
  rw [target_without isScope different]
  exact setBindings_without isScope (change_erase different) _

theorem answer_without (isScope : context.store.IsScope a) (different : edit.key ≠ key)
    (b : Addr) :
    edit.answer ((context.store.without a key).scope b).bindings =
      edit.answer (context.store.scope b).bindings := by
  by_cases same : b = a
  · subst same
    rw [without, scope_setBindings_self _ b _ isScope.lt_size, answer_erase different]
  · rw [without, scope_setBindings_of_ne _ a b _ same]

theorem heldUp_without (isScope : context.store.IsScope a) (different : edit.key ≠ key) :
    edit.HeldUp (context.store.without a key) ↔ edit.HeldUp context.store := by
  have blocked := (writesKey_without isScope key).blocked_other context.store.lent edit.scope
    different
  unfold HeldUp
  split
  · exact Iff.rfl
  · exact Iff.rfl
  · exact blocked
  · exact blocked

/-- An edit of another key does the same with the binding and without it. -/
theorem run_without (sound : context.store.Sound) (isScope : context.store.IsScope a)
    (fits : edit.Fits context.store) (different : edit.key ≠ key) :
    edit.run (context.without a key) =
      ((edit.run context).1, (edit.run context).2.without a key) := by
  by_cases heldUp : edit.HeldUp context.store
  · rw [run_of_heldUp heldUp]
    exact run_of_heldUp ((heldUp_without isScope different).mpr heldUp)
  · have develops := develops_without sound isScope key
    have stillFits := fits.retain develops.grows.toRetains
    have ranWithout : edit.run (context.without a key) = _ :=
      run_eq develops.sound stillFits.isScope (mt (heldUp_without isScope different).mp heldUp)
    rw [run_eq sound fits.isScope heldUp, ranWithout, logged_without isScope different,
      Context.without, target_without isScope different, answer_without isScope different,
      stored_without isScope different]
    rfl

end Edit

namespace Context.Shadowed

open Edit

variable {context : Context} {a : Addr} {key : String} {value : Value}

/-- An edit of another key leaves the binding, whether it is held up or not. -/
theorem run (shadowed : context.Shadowed a key value) {edit : Edit}
    (fits : edit.Fits context.store) (different : edit.key ≠ key) :
    (edit.run context).2.Shadowed a key value ∧
      context.store.Retains (edit.run context).2.store := by
  by_cases heldUp : edit.HeldUp context.store
  · rw [run_of_heldUp heldUp]
    exact ⟨shadowed, .refl context.store⟩
  · have develops := develops_stored shadowed.sound fits
    have write := writesKey_stored shadowed.sound fits.isScope
    rw [run_eq shadowed.sound fits.isScope heldUp]
    exact ⟨{
      sound := develops.sound
      free := shadowed.free
      isScope := develops.grows.scopes a shadowed.isScope
      bound := (write.get?_other a (Ne.symm different)).trans shadowed.bound },
      develops.grows.toRetains⟩

/-- A run of edits of other keys does the same with the binding and without it, and leaves it. -/
theorem runAll {edits : List Edit} (shadowed : context.Shadowed a key value)
    (fits : ∀ edit ∈ edits, edit.Fits context.store)
    (different : ∀ edit ∈ edits, edit.key ≠ key) :
    Edit.runAll edits (context.without a key) =
        ((Edit.runAll edits context).1, (Edit.runAll edits context).2.without a key) ∧
      (Edit.runAll edits context).2.Shadowed a key value := by
  induction edits generalizing context with
  | nil => exact ⟨rfl, shadowed⟩
  | cons edit edits inductionHypothesis =>
      rw [List.forall_mem_cons] at fits different
      obtain ⟨stillShadowed, retains⟩ := shadowed.run fits.1 different.1
      have ranWithout := run_without shadowed.sound shadowed.isScope fits.1 different.1
      rcases ran : edit.run context with ⟨fault | answer, middle⟩
      · rw [ran] at ranWithout stillShadowed
        rw [runAll_cons_of_error ran, runAll_cons_of_error ranWithout]
        exact ⟨rfl, stillShadowed⟩
      · rw [ran] at ranWithout stillShadowed retains
        obtain ⟨ranAll, lastShadowed⟩ := inductionHypothesis stillShadowed
          (fun next member => (fits.2 next member).retain retains) different.2
        rw [runAll_cons_of_ok ran, runAll_cons_of_ok ranWithout, ranAll]
        exact ⟨rfl, lastShadowed⟩

end Context.Shadowed

/-- While nothing is lent out, no edit is held up. -/
theorem Edit.exists_answers {edits : List Edit} {context : Context} (sound : context.store.Sound)
    (idle : context.store.lent = []) (fits : ∀ edit ∈ edits, edit.Fits context.store) :
    ∃ answers after, runAll edits context = (.ok answers, after) := by
  induction edits generalizing context with
  | nil => exact ⟨[], context, rfl⟩
  | cons edit edits inductionHypothesis =>
      rw [List.forall_mem_cons] at fits
      have ran := run_eq sound fits.1.isScope (not_heldUp_of_idle idle edit)
      have develops := develops_stored sound fits.1
      obtain ⟨answers, after, ranAll⟩ := @inductionHypothesis
        { context with store := edit.stored context.store, log := edit.logged context }
        develops.sound idle fun next member => (fits.2 next member).retain develops.grows.toRetains
      exact ⟨_ :: answers, after, by rw [runAll_cons_of_ok ran, ranAll]; rfl⟩

/-! ## Shadows -/

/-- What comes of edits of other keys between binding a key and erasing it. -/
structure Context.UndoesShadow (context : Context) (a : Addr) (key : String) (value : Value)
    (edits : List Edit) : Prop where
  /-- They answer and leave what they would answer and leave without it. -/
  answered : ∀ answers after, Edit.runAll edits context = (.ok answers, after) →
    Edit.runAll (⟨a, key, .insert value⟩ :: edits ++ [⟨a, key, .erase⟩]) context =
      (.ok (none :: answers ++ [some value]), after)
  /-- If one is held up, it would be so without it, and all else is what it would be. -/
  heldUp : ∀ fault after, Edit.runAll edits context = (.error fault, after) →
    ∃ shadowed : Context, shadowed.without a key = after ∧
      Edit.runAll (⟨a, key, .insert value⟩ :: edits ++ [⟨a, key, .erase⟩]) context =
        (.error fault, shadowed)

theorem Context.undoesShadow {context : Context} (sound : context.store.Sound) {a : Addr}
    (isScope : context.store.IsScope a) (free : a ∉ context.store.lent) {key : String}
    (unbound : (context.store.scope a).bindings.get? key = none) {value : Value}
    (held : value.Held context.store) {edits : List Edit}
    (fits : ∀ edit ∈ edits, edit.Fits context.store)
    (different : ∀ edit ∈ edits, edit.key ≠ key) : context.UndoesShadow a key value edits := by
  -- The run with the binding is the one that is followed: the other is what is left of it without.
  let shadow : Context := { context with store := context.store.setEntry a key value }
  have develops : context.store.Develops shadow.store := develops_setEntry sound isScope key held
  have shadowed : shadow.Shadowed a key value :=
    { sound := develops.sound
      free
      isScope := develops.grows.scopes a isScope
      bound := get?_setEntry isScope key value }
  have unshadowed : shadow.without a key = context :=
    congrArg (fun store => { context with store }) (without_setEntry isScope unbound value)
  have inserted : Edit.run ⟨a, key, .insert value⟩ context = (.ok none, shadow) := by
    rw [← unbound]
    exact Context.onStore_eq_ok (insert_of_free free key value)
  obtain ⟨ranWithout, stillShadowed⟩ := shadowed.runAll
    (fun edit member => (fits edit member).retain develops.grows.toRetains) different
  rw [unshadowed] at ranWithout
  rcases ran : Edit.runAll edits shadow with ⟨fault | answers, last⟩
  · rw [ran] at ranWithout
    refine ⟨fun answers after answered => ?_, fun fault after failed => ?_⟩
    · cases ranWithout.symm.trans answered
    · cases ranWithout.symm.trans failed
      refine ⟨last, rfl, Edit.runAll_append_of_error ?_⟩
      rw [Edit.runAll_cons_of_ok inserted, ran]
      rfl
  · rw [ran] at ranWithout stillShadowed
    refine ⟨fun answers after answered => ?_, fun fault after failed => ?_⟩
    · cases ranWithout.symm.trans answered
      have erased : Edit.run ⟨a, key, .erase⟩ last = (.ok (some value), last.without a key) := by
        rw [← stillShadowed.bound]
        exact Context.onStore_eq_ok (erase_of_free stillShadowed.free key)
      refine Edit.runAll_concat_of_ok ?_ erased
      rw [Edit.runAll_cons_of_ok inserted, ran]
      rfl
    · cases ranWithout.symm.trans failed

namespace Session

/-- A key is bound for a while: what happens to other keys meanwhile is what would happen to them
without it, and in the end nothing of it is left. -/
theorem Reached.undoes_shadow {session : Session} {frames : List Frame}
    (reached : session.Reached frames) {a : Addr} (isScope : session.context.store.IsScope a)
    (free : a ∉ frames.map Frame.storage) {key : String}
    (unbound : (session.context.store.scope a).bindings.get? key = none) {value : Value}
    (held : value.Held session.context.store) {edits : List Edit}
    (fits : ∀ edit ∈ edits, edit.Fits session.context.store)
    (different : ∀ edit ∈ edits, edit.key ≠ key) :
    session.context.UndoesShadow a key value edits ∧
      (frames = [] →
        ∃ answers after, Edit.runAll edits session.context = (.ok answers, after)) := by
  have stands := reached.stands
  have sound := stands.sound.context.store
  rw [← stands.lent] at free
  refine ⟨Context.undoesShadow sound isScope free unbound held fits different, ?_⟩
  rintro rfl
  exact Edit.exists_answers sound stands.lent fits

/-- Edits around the `x` of the inner scope, which is that of the outer one. -/
def editsOfOthers : List Edit := [
  ⟨1, "y", .insert (.str "second")⟩,
  ⟨0, "z", .insert (.str "third")⟩,
  ⟨1, "z", .assign (.str "fourth")⟩,
  ⟨1, "w", .overwrite (.str "fifth")⟩,
  ⟨1, "y", .erase⟩]

theorem fits_editsOfOthers : ∀ edit ∈ editsOfOthers, edit.Fits twoScopes.context.store := by
  have leaves (text : String) : (Value.str text).Held twoScopes.context.store :=
    Value.held_scalar _ (.str text)
  intro edit member
  simp only [editsOfOthers, List.mem_cons, List.not_mem_nil, or_false] at member
  rcases member with rfl | rfl | rfl | rfl | rfl <;>
    refine ⟨⟨_, rfl⟩, fun value left => ?_⟩ <;>
    simp only [Edit.Way.insert.injEq, Edit.Way.assign.injEq, Edit.Way.overwrite.injEq,
      reduceCtorEq, or_false, false_or] at left <;>
    exact left ▸ leaves _

/-- The inner scope shadows `x` for a while. The edits have their answers and leave what they
would leave, and so the inner scope means the `x` of the outer one again. -/
theorem undoes_shadow_twoScopes :
    twoScopes.Reachable ∧ twoScopes.context.store.resolve? 1 "x" = some (0, Value.str "first") ∧
      ∃ after, Edit.runAll editsOfOthers twoScopes.context =
          (.ok [none, none, none, some Value.none, some (Value.str "second")], after) ∧
        Edit.runAll (⟨1, "x", .insert (Value.str "shadow")⟩ :: editsOfOthers ++ [⟨1, "x", .erase⟩])
            twoScopes.context =
          (.ok [none, none, none, none, some Value.none, some (Value.str "second"),
            some (Value.str "shadow")], after) ∧
        after.store.resolve? 1 "x" = some (0, Value.str "first") := by
  have isScope : twoScopes.context.store.IsScope 1 := ⟨_, rfl⟩
  have unbound : (twoScopes.context.store.scope 1).bindings.get? "x" = none := rfl
  have held : (Value.str "shadow").Held twoScopes.context.store :=
    Value.held_scalar _ (.str "shadow")
  have undoes := (Reached.undoes_shadow reachable_twoScopes isScope List.not_mem_nil unbound held
    fits_editsOfOthers (by decide)).1
  exact ⟨reachable_twoScopes, rfl, _, rfl, undoes.answered _ _ rfl, rfl⟩

end Session

end ScopedValues
