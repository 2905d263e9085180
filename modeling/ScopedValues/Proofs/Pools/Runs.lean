import ScopedValues.Proofs.Pools.Counts

/-!
Contract: handles that share payloads, over runs of operations on them.

Owns the operations with their runs, which handles are aliases, where the payload of a cell
comes from, and what is written to it.

Main statements: a run keeps every count right; a handle that is not rebound stays on its cell;
every cell of a run has a beginning, and its payload is what it began with, changed by the
writes through handles on it; and what cloning and detaching do.
-/

set_option autoImplicit false

namespace ScopedValues

namespace Pool

variable {α : Type} [Inhabited α] {pool : Pool α} {name left right : String} {cell : Nat}

/-! ## Operations -/

/-- The cell of a handle that may be read through it. -/
def readableCell? (pool : Pool α) (handle : String) : Option Nat :=
  (pool.handles.get? handle).filter pool.readable

/-- The cell of a handle that may be written through it. -/
def writableCell? (pool : Pool α) (handle : String) : Option Nat :=
  (pool.handles.get? handle).filter pool.writable

/-- An operation on handles, which are the variables of a program. To move a handle is to
clone it and to drop it. -/
inductive Operation (α : Type) where
  /-- A handle on a new cell; the default handle is one with the default payload. -/
  | create (payload : α) (target : String)
  | clone (handle target : String)
  | detach (handle target : String)
  | drop (handle : String)
  | write (handle : String) (change : α → α)
  /-- Holds the cell of a handle for reading, or for writing. -/
  | hold (handle : String) (exclusive : Bool)
  /-- Ends the innermost hold. -/
  | endHold

namespace Operation

/-- What an operation makes of a pool. What is done through a name that is not bound, or to a
cell that is held in a way that excludes it, is not done. -/
def run (operation : Operation α) (pool : Pool α) : Pool α :=
  match operation with
  | create payload target => pool.create target payload
  | clone handle target => (pool.handles.get? handle).elim pool fun cell => pool.clone target cell
  | detach handle target =>
      (pool.readableCell? handle).elim pool fun cell => pool.create target (pool.payload cell)
  | drop handle => pool.drop handle
  | write handle change =>
      (pool.writableCell? handle).elim pool fun cell =>
        pool.setPayload cell (change (pool.payload cell))
  | hold handle exclusive =>
      ((if exclusive then writableCell? else readableCell?) pool handle).elim pool fun cell =>
        pool.lock { cell, exclusive }
  | endHold => pool.guards.head?.elim pool fun guard => pool.unlock guard.cell

/-- The handle that an operation binds anew or drops. -/
def rebound? : Operation α → Option String
  | create _ target => some target
  | clone _ target => some target
  | detach _ target => some target
  | drop handle => some handle
  | write _ _ => none
  | hold _ _ => none
  | endHold => none

/-- The payload that a new cell begins with: the one that is given, or the one that the source
has at this moment. -/
def initial? (operation : Operation α) (pool : Pool α) : Option α :=
  match operation with
  | create payload _ => some payload
  | detach handle _ => (pool.readableCell? handle).map pool.payload
  | _ => none

/-- The change that an operation makes to the payload of a cell, through any handle on it. -/
def changes (operation : Operation α) (pool : Pool α) (cell : Nat) : List (α → α) :=
  match operation with
  | write handle change => if pool.writableCell? handle = some cell then [change] else []
  | _ => []

end Operation

/-- The pool after a run. -/
def afterRun (pool : Pool α) (operations : List (Operation α)) : Pool α :=
  operations.foldl (fun pool operation => operation.run pool) pool

/-- The pool after a run that starts with no handle at all. -/
abbrev reached (operations : List (Operation α)) : Pool α :=
  ({} : Pool α).afterRun operations

/-- The changes that a run makes to the payload of a cell, in order. -/
def changesOf (pool : Pool α) (cell : Nat) : List (Operation α) → List (α → α)
  | [] => []
  | operation :: rest => operation.changes pool cell ++ changesOf (operation.run pool) cell rest

theorem afterRun_append (earlier later : List (Operation α)) :
    pool.afterRun (earlier ++ later) = (pool.afterRun earlier).afterRun later :=
  List.foldl_append

omit [Inhabited α] in
theorem get?_of_readableCell? (found : pool.readableCell? name = some cell) :
    pool.handles.get? name = some cell :=
  (Option.filter_eq_some_iff.mp found).1

omit [Inhabited α] in
theorem get?_of_writableCell? (found : pool.writableCell? name = some cell) :
    pool.handles.get? name = some cell :=
  (Option.filter_eq_some_iff.mp found).1

omit [Inhabited α] in
theorem get?_of_cell? {exclusive : Bool}
    (found : (if exclusive then writableCell? else readableCell?) pool name = some cell) :
    pool.handles.get? name = some cell := by
  cases exclusive
  · exact get?_of_readableCell? found
  · exact get?_of_writableCell? found

/-! ## Counts along a run -/

theorem Counted.run (counted : pool.Counted []) (operation : Operation α) :
    (operation.run pool).Counted [] := by
  cases operation with
  | create payload target => exact counted.create target payload
  | clone handle target =>
      simp only [Operation.run]
      cases live : pool.handles.get? handle with
      | none => exact counted
      | some cell => exact counted.clone (counted.lt_size live) target
  | detach handle target =>
      simp only [Operation.run]
      cases pool.readableCell? handle with
      | none => exact counted
      | some cell => exact counted.create target _
  | drop handle => exact counted.drop handle
  | write handle change =>
      simp only [Operation.run]
      cases found : pool.writableCell? handle with
      | none => exact counted
      | some cell => exact counted.setPayload (counted.lt_size (get?_of_writableCell? found)) _
  | hold handle exclusive =>
      simp only [Operation.run]
      cases found : (if exclusive then writableCell? else readableCell?) pool handle with
      | none => exact counted
      | some cell => exact counted.lock (counted.lt_size (get?_of_cell? found))
  | endHold =>
      simp only [Operation.run]
      cases held : pool.guards with
      | nil => exact counted
      | cons guard rest => exact counted.unlock held

theorem Counted.afterRun (counted : pool.Counted []) (operations : List (Operation α)) :
    (pool.afterRun operations).Counted [] := by
  induction operations generalizing pool with
  | nil => exact counted
  | cons operation rest inductionHypothesis => exact inductionHypothesis (counted.run operation)

/-! ## Aliases -/

/-- Whether two names are bound to handles on one cell. -/
def aliases (pool : Pool α) (left right : String) : Bool :=
  match pool.handles.get? left, pool.handles.get? right with
  | some leftCell, some rightCell => leftCell == rightCell
  | _, _ => false

omit [Inhabited α] in
theorem aliases_iff :
    pool.aliases left right = true ↔
      ∃ cell, pool.handles.get? left = some cell ∧ pool.handles.get? right = some cell := by
  rw [aliases]
  split
  · next leftCell rightCell leftLive rightLive =>
      rw [beq_iff_eq]
      constructor
      · rintro rfl
        exact ⟨leftCell, leftLive, rightLive⟩
      · rintro ⟨cell, onLeft, onRight⟩
        rw [leftLive] at onLeft
        rw [rightLive] at onRight
        exact Option.some.inj (onLeft.trans onRight.symm)
  · next dead =>
      refine ⟨fun impossible => absurd impossible Bool.false_ne_true, ?_⟩
      rintro ⟨cell, onLeft, onRight⟩
      exact absurd onRight (dead cell cell onLeft)

/-- The handles on a cell are the aliases of any one of them. -/
theorem Counted.holders_eq {loose : List Nat} (counted : pool.Counted loose)
    (live : pool.handles.get? name = some cell) :
    pool.holders cell =
      pool.handles.keys.countP (pool.aliases name) +
        pool.guards.countP fun guard => guard.cell == cell := by
  rw [holders, Table.keys, List.countP_map]
  congr 1
  refine List.countP_congr fun handle kept => ?_
  have bound := Table.get?_of_mem counted.distinct kept
  rw [Function.comp_apply, aliases_iff, live, bound]
  simp only [Option.some.injEq, beq_iff_eq, exists_eq_left']

theorem get?_store_of_ne {other : String} (different : other ≠ name) :
    (pool.store name cell).handles.get? other = pool.handles.get? other := by
  rw [store, Table.get?_insert_of_ne _ _ _ _ different, get?_drop_of_ne different]

@[simp] theorem get?_store_self : (pool.store name cell).handles.get? name = some cell :=
  Table.get?_insert_self _ _ _

/-- A handle that is not rebound stays on its cell. -/
theorem get?_run {operation : Operation α} (kept : operation.rebound? ≠ some name) :
    (operation.run pool).handles.get? name = pool.handles.get? name := by
  have different : ∀ {target : String}, some target ≠ some name → name ≠ target :=
    fun apart same => apart (same ▸ rfl)
  cases operation with
  | create payload target => exact get?_store_of_ne (different kept)
  | clone handle target =>
      simp only [Operation.run]
      cases pool.handles.get? handle with
      | none => rfl
      | some cell => exact get?_store_of_ne (different kept)
  | detach handle target =>
      simp only [Operation.run]
      cases pool.readableCell? handle with
      | none => rfl
      | some cell => exact get?_store_of_ne (different kept)
  | drop handle => exact get?_drop_of_ne (different kept)
  | write handle change =>
      simp only [Operation.run]
      cases pool.writableCell? handle <;> rfl
  | hold handle exclusive =>
      simp only [Operation.run]
      cases (if exclusive then writableCell? else readableCell?) pool handle <;> rfl
  | endHold =>
      simp only [Operation.run]
      cases pool.guards.head? <;> rfl

theorem get?_afterRun {operations : List (Operation α)}
    (kept : ∀ operation ∈ operations, operation.rebound? ≠ some name) :
    (pool.afterRun operations).handles.get? name = pool.handles.get? name := by
  induction operations generalizing pool with
  | nil => rfl
  | cons operation rest inductionHypothesis =>
      obtain ⟨here, later⟩ := List.forall_mem_cons.mp kept
      exact (inductionHypothesis later).trans (get?_run here)

/-! ## Payloads -/

theorem Counted.payload_store {loose : List Nat} (counted : pool.Counted loose) (name : String)
    (cell other : Nat) : (pool.store name cell).payload other = pool.payload other :=
  counted.payload_drop name other

theorem Counted.payload_create (counted : pool.Counted []) (name : String) (payload : α)
    (cell : Nat) :
    (pool.create name payload).payload cell =
      if cell = pool.cells.size then payload else pool.payload cell := by
  rw [Pool.create, (counted.push payload).payload_store, Pool.payload, Array.getD_eq_getD_getElem?,
    Array.getElem?_push]
  split
  · rfl
  · simp [Pool.payload]

@[simp] theorem size_store : (pool.store name cell).cells.size = pool.cells.size :=
  size_drop

theorem size_create (payload : α) :
    (pool.create name payload).cells.size = pool.cells.size + 1 := by
  rw [create, size_store]
  exact Array.size_push _

/-- An operation makes one cell, or none. -/
theorem size_run (operation : Operation α) :
    (operation.run pool).cells.size =
      pool.cells.size + if (operation.initial? pool).isSome then 1 else 0 := by
  cases operation with
  | create payload target => exact size_create payload
  | clone handle target =>
      simp only [Operation.run]
      cases pool.handles.get? handle with
      | none => rfl
      | some cell => simp [Operation.initial?, Pool.clone]
  | detach handle target =>
      simp only [Operation.run, Operation.initial?, Option.isSome_map]
      cases pool.readableCell? handle with
      | none => rfl
      | some cell => exact size_create _
  | drop handle => exact size_drop
  | write handle change =>
      simp only [Operation.run]
      cases pool.writableCell? handle with
      | none => rfl
      | some cell => exact size_setPayload _
  | hold handle exclusive =>
      simp only [Operation.run]
      cases (if exclusive then writableCell? else readableCell?) pool handle with
      | none => rfl
      | some cell => exact size_retain
  | endHold =>
      simp only [Operation.run]
      cases pool.guards.head? with
      | none => rfl
      | some guard => exact size_release

section Step

variable (counted : pool.Counted []) (operation : Operation α)

include counted

/-- A new cell begins with its initial payload. -/
theorem Counted.payload_run_new {initial : α}
    (begins : operation.initial? pool = some initial) :
    (operation.run pool).payload pool.cells.size = initial := by
  cases operation with
  | create payload target =>
      obtain rfl : payload = initial := Option.some.inj begins
      exact (counted.payload_create target payload _).trans (if_pos rfl)
  | detach handle target =>
      obtain ⟨cell, found, rfl⟩ := Option.map_eq_some_iff.mp begins
      simp only [Operation.run, found, Option.elim_some]
      exact (counted.payload_create target _ _).trans (if_pos rfl)
  | _ => cases begins

/-- A cell that is there is changed by a write through a handle on it and by nothing else. -/
theorem Counted.payload_run (inside : cell < pool.cells.size) :
    (operation.run pool).payload cell =
      (operation.changes pool cell).foldl (fun payload change => change payload)
        (pool.payload cell) := by
  have old := Nat.ne_of_lt inside
  cases operation with
  | create payload target => exact (counted.payload_create target payload cell).trans (if_neg old)
  | clone handle target =>
      simp only [Operation.run]
      cases live : pool.handles.get? handle with
      | none => rfl
      | some source =>
          have there := counted.lt_size live
          exact ((counted.retain there).payload_store target source cell).trans
            (payload_retain there cell)
  | detach handle target =>
      simp only [Operation.run]
      cases pool.readableCell? handle with
      | none => rfl
      | some source => exact (counted.payload_create target _ cell).trans (if_neg old)
  | drop handle => exact counted.payload_drop handle cell
  | write handle change =>
      simp only [Operation.run, Operation.changes]
      cases found : pool.writableCell? handle with
      | none => rfl
      | some written =>
          rw [Option.elim_some, payload_setPayload (counted.lt_size (get?_of_writableCell? found))]
          by_cases same : cell = written
          · simp [same]
          · simp [same, Ne.symm same]
  | hold handle exclusive =>
      simp only [Operation.run]
      cases found : (if exclusive then writableCell? else readableCell?) pool handle with
      | none => rfl
      | some held => exact payload_retain (counted.lt_size (get?_of_cell? found)) cell
  | endHold =>
      simp only [Operation.run]
      cases held : pool.guards with
      | nil => rfl
      | cons guard rest =>
          exact payload_release (counted.guarded guard (held ▸ List.mem_cons_self)) cell

end Step

theorem Counted.payload_afterRun (counted : pool.Counted []) (inside : cell < pool.cells.size)
    (operations : List (Operation α)) :
    (pool.afterRun operations).payload cell =
      (pool.changesOf cell operations).foldl (fun payload change => change payload)
        (pool.payload cell) := by
  induction operations generalizing pool with
  | nil => rfl
  | cons operation rest inductionHypothesis =>
      have there : cell < (operation.run pool).cells.size := by
        rw [size_run]
        omega
      rw [changesOf, List.foldl_append, ← counted.payload_run operation inside]
      exact inductionHypothesis (counted.run operation) there

/-- Every cell that a run adds is made by one of its operations. -/
theorem Counted.exists_beginning (counted : pool.Counted []) {operations : List (Operation α)}
    (fresh : pool.cells.size ≤ cell) (inside : cell < (pool.afterRun operations).cells.size) :
    ∃ earlier operation later initial, operations = earlier ++ operation :: later ∧
      (pool.afterRun earlier).cells.size = cell ∧
      operation.initial? (pool.afterRun earlier) = some initial := by
  induction operations generalizing pool with
  | nil => exact absurd inside (Nat.not_lt.mpr fresh)
  | cons first rest inductionHypothesis =>
      have size : (first.run pool).cells.size = _ := size_run first
      by_cases later : (first.run pool).cells.size ≤ cell
      · obtain ⟨earlier, operation, more, initial, rfl, here, begins⟩ :=
          inductionHypothesis (counted.run first) later inside
        exact ⟨first :: earlier, operation, more, initial, rfl, here, begins⟩
      · split at size
        · next makes =>
            obtain ⟨initial, begins⟩ := Option.isSome_iff_exists.mp makes
            have here : pool.cells.size = cell := by omega
            exact ⟨[], first, rest, initial, rfl, here, begins⟩
        · omega

/-! ## Cloning -/

/-- What cloning does. The target is one more handle on the cell of the source, unless it takes
the place of an alias of the source, which is one less. -/
structure Clones (pool later : Pool α) (source target : String) (cell : Nat) : Prop where
  bound : later.handles.get? target = some cell
  aliased : later.aliases source target = true
  shareCount : later.shareCount cell =
    pool.shareCount cell + 1 - if pool.aliases source target then 1 else 0
  payload : later.payload cell = pool.payload cell
  size : later.cells.size = pool.cells.size

omit [Inhabited α] in
theorem aliases_eq_true_iff_of_live {source target : String}
    (live : pool.handles.get? source = some cell) :
    pool.aliases source target = true ↔ pool.handles.get? target = some cell := by
  rw [aliases_iff, live]
  simp

theorem Counted.clones (counted : pool.Counted []) {source : String}
    (live : pool.handles.get? source = some cell) (target : String) :
    pool.Clones ((Operation.clone source target).run pool) source target cell := by
  have inside := counted.lt_size live
  have retained := counted.retain inside
  simp only [Operation.run, live, Option.elim_some]
  have bound : (pool.clone target cell).handles.get? target = some cell := get?_store_self
  have stays : (pool.clone target cell).handles.get? source = some cell := by
    by_cases same : source = target
    · rw [same]
      exact bound
    · exact (get?_store_of_ne same).trans live
  refine ⟨bound, aliases_iff.mpr ⟨cell, stays, bound⟩, ?_, ?_, size_store.trans size_retain⟩
  · refine (retained.shareCount_drop target cell).trans ?_
    rw [shareCount_retain inside, if_pos rfl]
    simp only [aliases_eq_true_iff_of_live live]
    rfl
  · exact (retained.payload_store target cell cell).trans (payload_retain inside cell)

/-! ## Detaching -/

/-- What detaching does to the source and to the new handle. The source loses a handle only if
the new one takes the place of an alias of it. -/
structure Detaches (pool later : Pool α) (source target : String) (cell fresh : Nat) : Prop where
  bound : later.handles.get? target = some fresh
  single : later.shareCount fresh = 1
  copied : later.payload fresh = pool.payload cell
  payload : later.payload cell = pool.payload cell
  shareCount : later.shareCount cell =
    pool.shareCount cell - if pool.aliases source target then 1 else 0
  apart : cell ≠ fresh

theorem Counted.detaches (counted : pool.Counted []) {source : String}
    (found : pool.readableCell? source = some cell) (target : String) :
    pool.Detaches ((Operation.detach source target).run pool) source target cell
      pool.cells.size := by
  have live := get?_of_readableCell? found
  have inside := counted.lt_size live
  have apart := Nat.ne_of_lt inside
  have pushed := counted.push (pool.payload cell)
  have old : ∀ held, pool.handles.get? target = some held → held ≠ pool.cells.size :=
    fun held bound => Nat.ne_of_lt (counted.lt_size bound)
  simp only [Operation.run, found, Option.elim_some]
  refine ⟨get?_store_self, ?_, ?_, ?_, ?_, apart⟩
  · have free : pool.handles.get? target ≠ some pool.cells.size := fun bound => old _ bound rfl
    refine (pushed.shareCount_drop target pool.cells.size).trans ?_
    rw [if_neg free]
    simp [Pool.shareCount]
  · exact (counted.payload_create target _ _).trans (if_pos rfl)
  · exact (counted.payload_create target _ _).trans (if_neg apart)
  · refine (pushed.shareCount_drop target cell).trans ?_
    simp only [aliases_eq_true_iff_of_live live]
    congr 1
    simp [Pool.shareCount, Array.getElem?_push, apart]

end Pool

end ScopedValues
