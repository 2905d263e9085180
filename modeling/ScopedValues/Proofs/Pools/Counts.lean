import ScopedValues.Pool
import ScopedValues.Table.Lemmas

/-!
Contract: the count that a cell keeps of the handles on it.

Owns the handles on a cell, counted one by one, and what each operation does to them and to
the payloads.

Main statement: every operation keeps the count of every cell right, where handles that have
been counted and have no name yet are counted too.

Does not own runs of operations.
-/

set_option autoImplicit false

namespace ScopedValues

namespace Pool

variable {α : Type} [Inhabited α] {pool : Pool α} {name other : String} {cell source : Nat}

/-! ## Handles on a cell -/

/-- The named handles on a cell and the guards that hold it. -/
def holders (pool : Pool α) (cell : Nat) : Nat :=
  (pool.handles.entries.countP fun handle => handle.2 == cell) +
    pool.guards.countP fun guard => guard.cell == cell

/-- Every handle is on a cell, and every cell counts the handles on it. The `loose` ones are
on their way: a cell counts them already, or still, and no name is bound to them. -/
structure Counted (pool : Pool α) (loose : List Nat) : Prop where
  distinct : pool.handles.keys.Nodup
  named : ∀ handle ∈ pool.handles.entries, handle.2 < pool.cells.size
  guarded : ∀ guard ∈ pool.guards, guard.cell < pool.cells.size
  inside : ∀ cell ∈ loose, cell < pool.cells.size
  counts : ∀ cell < pool.cells.size, pool.shareCount cell = pool.holders cell + loose.count cell

theorem counted_empty : ({} : Pool α).Counted [] where
  distinct := List.nodup_nil
  named := by simp [Table.empty]
  guarded := by simp
  inside := by simp
  counts cell inside := absurd inside (Nat.not_lt_zero cell)

theorem Counted.lt_size {loose : List Nat} (counted : pool.Counted loose)
    (live : pool.handles.get? name = some cell) : cell < pool.cells.size :=
  counted.named _ (Table.mem_of_get? live)

/-! ## Cells -/

theorem getD_setIfInBounds (cells : Array (Cell α)) (written : Cell α) {target : Nat}
    (inside : target < cells.size) (cell : Nat) :
    (cells.setIfInBounds target written).getD cell default =
      if cell = target then written else cells.getD cell default := by
  rw [Array.getD_eq_getD_getElem?, Array.getD_eq_getD_getElem?, Array.getElem?_setIfInBounds]
  by_cases same : target = cell
  · subst same
    simp [inside]
  · simp [same, Ne.symm same]

section SetCell

variable (inside : cell < pool.cells.size)

include inside

/-- What the cell written anew keeps, every cell keeps. -/
theorem getD_setIfInBounds_of_kept {β : Type} (field : Cell α → β) {written : Cell α}
    (other : Nat) (kept : field written = field (pool.cells.getD cell default)) :
    field ((pool.cells.setIfInBounds cell written).getD other default) =
      field (pool.cells.getD other default) := by
  rw [getD_setIfInBounds _ _ inside]
  split
  · next same => rw [same, kept]
  · rfl

theorem payload_setPayload (written : α) (other : Nat) :
    (pool.setPayload cell written).payload other =
      if other = cell then written else pool.payload other := by
  rw [payload, setPayload, getD_setIfInBounds _ _ inside]
  split <;> rfl

theorem shareCount_setPayload (written : α) (other : Nat) :
    (pool.setPayload cell written).shareCount other = pool.shareCount other := by
  refine getD_setIfInBounds_of_kept inside Cell.handleCount other ?_
  rfl

theorem payload_retain (other : Nat) :
    (pool.retain cell).payload other = pool.payload other := by
  refine getD_setIfInBounds_of_kept inside Cell.payload other ?_
  rfl

theorem payload_release (other : Nat) :
    (pool.release cell).payload other = pool.payload other := by
  refine getD_setIfInBounds_of_kept inside Cell.payload other ?_
  rfl

theorem shareCount_retain (other : Nat) :
    (pool.retain cell).shareCount other =
      pool.shareCount other + if other = cell then 1 else 0 := by
  rw [shareCount, retain, getD_setIfInBounds _ _ inside]
  split
  · next same => rw [same]
  · rfl

theorem shareCount_release (other : Nat) :
    (pool.release cell).shareCount other =
      pool.shareCount other - if other = cell then 1 else 0 := by
  rw [shareCount, release, getD_setIfInBounds _ _ inside]
  split
  · next same => rw [same]
  · rfl

end SetCell

@[simp] theorem size_setPayload (written : α) :
    (pool.setPayload cell written).cells.size = pool.cells.size := by
  simp [setPayload]

@[simp] theorem size_retain : (pool.retain cell).cells.size = pool.cells.size := by
  simp [retain]

@[simp] theorem size_release : (pool.release cell).cells.size = pool.cells.size := by
  simp [release]

namespace Counted

variable {loose : List Nat}

/-- Where only cells change, what is left to say is what they count. -/
theorem recount {later : Pool α} {looser : List Nat} (counted : pool.Counted loose)
    (handles : later.handles = pool.handles) (guards : later.guards = pool.guards)
    (size : later.cells.size = pool.cells.size)
    (inside : ∀ cell ∈ looser, cell < pool.cells.size)
    (counts : ∀ cell < pool.cells.size,
      later.shareCount cell = pool.holders cell + looser.count cell) : later.Counted looser where
  distinct := handles ▸ counted.distinct
  named handle kept := size ▸ counted.named handle (handles ▸ kept)
  guarded guard kept := size ▸ counted.guarded guard (guards ▸ kept)
  inside cell loosened := size ▸ inside cell loosened
  counts cell there := by
    have same : later.holders cell = pool.holders cell := by
      rw [holders, holders, handles, guards]
    rw [same]
    exact counts cell (size ▸ there)

theorem setPayload (counted : pool.Counted loose) (inside : cell < pool.cells.size)
    (written : α) : (pool.setPayload cell written).Counted loose :=
  counted.recount rfl rfl (size_setPayload written) counted.inside fun other there => by
    rw [shareCount_setPayload inside]
    exact counted.counts other there

theorem retain (counted : pool.Counted loose) (inside : cell < pool.cells.size) :
    (pool.retain cell).Counted (cell :: loose) := by
  refine counted.recount rfl rfl size_retain (List.forall_mem_cons.mpr ⟨inside, counted.inside⟩)
    fun other there => ?_
  rw [shareCount_retain inside, counted.counts other there, List.count_cons]
  simp only [beq_iff_eq, eq_comm (a := other)]
  omega

theorem release (counted : pool.Counted (cell :: loose)) :
    (pool.release cell).Counted loose := by
  obtain ⟨inside, insideRest⟩ := List.forall_mem_cons.mp counted.inside
  refine counted.recount rfl rfl size_release insideRest fun other there => ?_
  rw [shareCount_release inside, counted.counts other there, List.count_cons]
  simp only [beq_iff_eq, eq_comm (a := other)]
  omega

end Counted

/-! ## Handles -/

/-- Taking a name away loosens its handle. -/
theorem Counted.unname {loose : List Nat} (counted : pool.Counted loose)
    (live : pool.handles.get? name = some cell) :
    ({ pool with handles := pool.handles.erase name } : Pool α).Counted (cell :: loose) where
  distinct := Table.nodup_keys_erase _ name counted.distinct
  named handle kept := counted.named handle (Table.mem_erase kept)
  guarded := counted.guarded
  inside := by simpa using ⟨counted.lt_size live, counted.inside⟩
  counts other there := by
    have erased := Table.countP_entries_erase live fun handle => handle.2 == other
    have before := counted.counts other there
    simp only [holders, List.count_cons] at before erased ⊢
    change pool.shareCount other = _
    omega

/-- Naming a loose handle by a name that is free. -/
theorem Counted.nameLoose {loose : List Nat} (counted : pool.Counted (cell :: loose))
    (free : pool.handles.get? name = none) :
    ({ pool with handles := pool.handles.insert name cell } : Pool α).Counted loose where
  distinct := Table.nodup_keys_insert _ name cell counted.distinct
  named handle kept := by
    rcases Table.mem_insert kept with rfl | old
    · exact counted.inside cell List.mem_cons_self
    · exact counted.named handle old
  guarded := counted.guarded
  inside other loosened := counted.inside other (List.mem_cons_of_mem cell loosened)
  counts other there := by
    have before := counted.counts other there
    simp only [holders, List.count_cons] at before ⊢
    simp only [Table.entries_insert_of_unbound cell free, List.countP_append,
      List.countP_singleton]
    change pool.shareCount other = _
    omega

@[simp] theorem guards_drop : (pool.drop name).guards = pool.guards := by
  rw [drop]
  split <;> rfl

theorem get?_drop_of_ne (different : other ≠ name) :
    (pool.drop name).handles.get? other = pool.handles.get? other := by
  rw [drop]
  split
  · exact Table.get?_erase_of_ne _ _ _ different
  · rfl

@[simp] theorem size_drop : (pool.drop name).cells.size = pool.cells.size := by
  rw [drop]
  split
  · rw [size_release]
  · rfl

namespace Counted

variable {loose : List Nat}

theorem drop (counted : pool.Counted loose) (name : String) : (pool.drop name).Counted loose := by
  rw [Pool.drop]
  split
  · next cell live => exact (counted.unname live).release
  · exact counted

theorem get?_drop_self (counted : pool.Counted loose) (name : String) :
    (pool.drop name).handles.get? name = none := by
  rw [Pool.drop]
  split
  · exact Table.get?_erase_self _ _ counted.distinct
  · next free => exact free

theorem payload_drop (counted : pool.Counted loose) (name : String) (cell : Nat) :
    (pool.drop name).payload cell = pool.payload cell := by
  rw [Pool.drop]
  split
  · next held live =>
      let rest : Pool α := { pool with handles := pool.handles.erase name }
      have inside : held < rest.cells.size := counted.lt_size live
      exact payload_release inside cell
  · rfl

/-- Dropping a handle takes one away from the count of its own cell. -/
theorem shareCount_drop (counted : pool.Counted loose) (name : String) (cell : Nat) :
    (pool.drop name).shareCount cell =
      pool.shareCount cell - if pool.handles.get? name = some cell then 1 else 0 := by
  rw [Pool.drop]
  split
  · next held live =>
      rw [live]
      simp only [Option.some.injEq, eq_comm (a := held)]
      let rest : Pool α := { pool with handles := pool.handles.erase name }
      have inside : held < rest.cells.size := counted.lt_size live
      exact shareCount_release inside cell
  · next free => simp [free]

theorem store (counted : pool.Counted (cell :: loose)) (name : String) :
    (pool.store name cell).Counted loose :=
  (counted.drop name).nameLoose (counted.get?_drop_self name)

/-- A new cell comes with one loose handle. -/
theorem push (counted : pool.Counted loose) (payload : α) :
    ({ pool with cells := pool.cells.push ⟨payload, 1⟩ } : Pool α).Counted
      (pool.cells.size :: loose) where
  distinct := counted.distinct
  named handle kept := by
    have := counted.named handle kept
    simp only [Array.size_push]
    omega
  guarded guard kept := by
    have := counted.guarded guard kept
    simp only [Array.size_push]
    omega
  inside other loosened := by
    simp only [Array.size_push]
    rcases List.mem_cons.mp loosened with rfl | old
    · omega
    · have := counted.inside other old
      omega
  counts other there := by
    by_cases new : other = pool.cells.size
    · -- No handle is on the new cell yet, since every handle is on a cell.
      have unheld : pool.holders other = 0 := by
        rw [holders, Nat.add_eq_zero_iff, List.countP_eq_zero, List.countP_eq_zero]
        simp only [beq_iff_eq]
        exact ⟨fun handle kept => Nat.ne_of_lt (new ▸ counted.named handle kept),
          fun guard kept => Nat.ne_of_lt (new ▸ counted.guarded guard kept)⟩
      have unloosened : loose.count other = 0 :=
        List.count_eq_zero.mpr fun loosened =>
          Nat.lt_irrefl _ (new ▸ counted.inside other loosened)
      change _ = pool.holders other + _
      rw [unheld, List.count_cons, unloosened]
      simp [shareCount, new]
    · have old : other < pool.cells.size := by
        rw [Array.size_push] at there
        omega
      change _ = pool.holders other + _
      rw [List.count_cons_of_ne (Ne.symm new), ← counted.counts other old]
      simp [shareCount, Array.getElem?_push, new]

theorem create (counted : pool.Counted loose) (name : String) (payload : α) :
    (pool.create name payload).Counted loose :=
  (counted.push payload).store name

theorem clone (counted : pool.Counted loose) (inside : cell < pool.cells.size) (name : String) :
    (pool.clone name cell).Counted loose :=
  (counted.retain inside).store name

/-! ## Guards -/

theorem lock (counted : pool.Counted loose) {guard : Guard}
    (inside : guard.cell < pool.cells.size) : (pool.lock guard).Counted loose :=
  have retained := counted.retain inside
  { distinct := retained.distinct
    named := retained.named
    guarded := List.forall_mem_cons.mpr ⟨retained.inside _ List.mem_cons_self, retained.guarded⟩
    inside := fun other loosened => retained.inside other (List.mem_cons_of_mem _ loosened)
    counts := fun other there => by
      have before := retained.counts other there
      simp only [holders, Pool.lock, List.count_cons, List.countP_cons] at before ⊢
      change (pool.retain guard.cell).shareCount other = _
      rw [before]
      change _ + pool.guards.countP _ + _ = _
      omega }

theorem unlock (counted : pool.Counted loose) {guard : Guard} {rest : List Guard}
    (held : pool.guards = guard :: rest) : (pool.unlock guard.cell).Counted loose :=
  -- The guard is taken away first, which loosens the handle it had.
  have loosened : ({ pool with guards := rest } : Pool α).Counted (guard.cell :: loose) :=
    { distinct := counted.distinct
      named := counted.named
      guarded := fun other kept => counted.guarded other (held ▸ List.mem_cons_of_mem guard kept)
      inside := List.forall_mem_cons.mpr
        ⟨counted.guarded guard (held ▸ List.mem_cons_self), counted.inside⟩
      counts := fun other there => by
        have before := counted.counts other there
        simp only [holders, held, List.count_cons, List.countP_cons] at before ⊢
        change pool.shareCount other = _
        omega }
  have released := loosened.release
  have same : pool.unlock guard.cell =
      ({ pool with guards := rest } : Pool α).release guard.cell := by
    rw [Pool.unlock, held]
    rfl
  same ▸ released

end Counted

end Pool

end ScopedValues
