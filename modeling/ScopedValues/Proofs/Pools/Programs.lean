import ScopedValues.Proofs.Pools.Runs

/-!
Contract: how handles share payloads.

Owns what is true of counts, aliases, payloads, cloning and detaching after a run, and how
programs over pools of number lists run.

Main statement: it is true after every run, and every program is a run.
-/

set_option autoImplicit false

namespace ScopedValues

namespace Pool

variable {α : Type} [Inhabited α] {pool : Pool α} {name left right : String} {cell : Nat}

/-! ## Programs -/

/-- One pool comes from another by a run that ends every hold it begins. -/
def Follows (pool later : Pool α) : Prop :=
  ∃ operations, later = pool.afterRun operations ∧ later.guards = pool.guards

namespace Follows

variable {later last : Pool α}

theorem refl (pool : Pool α) : pool.Follows pool :=
  ⟨[], rfl, rfl⟩

theorem trans (first : pool.Follows later) (second : later.Follows last) : pool.Follows last := by
  obtain ⟨earlier, rfl, kept⟩ := first
  obtain ⟨more, rfl, still⟩ := second
  exact ⟨earlier ++ more, (afterRun_append earlier more).symm, still.trans kept⟩

theorem of_run (operation : Operation α)
    (kept : (operation.run pool).guards = pool.guards) : pool.Follows (operation.run pool) :=
  ⟨[operation], rfl, kept⟩

/-- What is done between a hold and its end is done in one run with them. -/
theorem of_hold {exclusive : Bool}
    (found : (if exclusive then writableCell? else readableCell?) pool name = some cell)
    (between : (pool.lock { cell, exclusive }).Follows later) :
    pool.Follows (later.unlock cell) := by
  obtain ⟨operations, rfl, kept⟩ := between
  have begins : (Operation.hold name exclusive).run pool = pool.lock { cell, exclusive } := by
    simp only [Operation.run, found, Option.elim_some]
  have ends : Operation.endHold.run ((pool.lock { cell, exclusive }).afterRun operations) =
      ((pool.lock { cell, exclusive }).afterRun operations).unlock cell := by
    simp only [Operation.run, kept]
    rfl
  refine ⟨.hold name exclusive :: operations ++ [.endHold], ?_, ?_⟩
  · rw [afterRun_append, ← ends, ← begins]
    rfl
  · rw [unlock, kept]
    rfl

end Follows

section Programs

variable {pool : Pool (List Int)}

theorem snd_onHandle (name : String) (work : Nat → PoolM PoolAnswer) :
    (onHandle name work pool).2 =
      (pool.handles.get? name).elim pool fun cell => (work cell pool).2 := by
  simp only [onHandle, StateT.bind, bind, get, getThe, MonadStateOf.get, StateT.get, pure]
  cases pool.handles.get? name <;> rfl

theorem snd_onOpenHandle (isOpen : Pool (List Int) → Nat → Bool) (name : String)
    (work : Nat → PoolM PoolAnswer) :
    (onOpenHandle isOpen name work pool).2 =
      ((pool.handles.get? name).filter (isOpen pool)).elim pool fun cell =>
        (work cell pool).2 := by
  rw [onOpenHandle, snd_onHandle]
  cases pool.handles.get? name with
  | none => rfl
  | some cell =>
      change ((if isOpen pool cell then work cell else pure .conflict : PoolM PoolAnswer) pool).2
        = _
      rw [Option.filter_some]
      split <;> rfl

theorem snd_reading (name : String) (work : Nat → PoolM PoolAnswer) :
    (reading name work pool).2 =
      (pool.readableCell? name).elim pool fun cell => (work cell pool).2 :=
  snd_onOpenHandle readable name work

theorem snd_writing (name : String) (work : Nat → PoolM PoolAnswer) :
    (writing name work pool).2 =
      (pool.writableCell? name).elim pool fun cell => (work cell pool).2 :=
  snd_onOpenHandle writable name work

theorem snd_look (found : Option Nat) :
    (found.elim pool fun _ => pool) = pool := by
  cases found <;> rfl

mutual

theorem follows_perform (pool : Pool (List Int)) :
    (step : PoolStep) → pool.Follows (perform step pool).2
  | .new items target => .of_run (.create items target) guards_drop
  | .clone handle target => by
      have same : (perform (.clone handle target) pool).2 =
          (Operation.clone handle target).run pool := snd_onHandle _ _
      rw [same]
      refine .of_run _ ?_
      simp only [Operation.run]
      cases pool.handles.get? handle with
      | none => rfl
      | some cell => exact guards_drop
  | .detach handle target => by
      have same : (perform (.detach handle target) pool).2 =
          (Operation.detach handle target).run pool := snd_reading _ _
      rw [same]
      refine .of_run _ ?_
      simp only [Operation.run]
      cases pool.readableCell? handle with
      | none => rfl
      | some cell => exact guards_drop
  | .drop handle => .of_run (.drop handle) guards_drop
  | .count handle => by
      have same : (perform (.count handle) pool).2 = pool := (snd_onHandle _ _).trans (snd_look _)
      rw [same]
      exact .refl pool
  | .read handle => by
      have same : (perform (.read handle) pool).2 = pool := (snd_reading _ _).trans (snd_look _)
      rw [same]
      exact .refl pool
  | .inspect handle => by
      have same : (perform (.inspect handle) pool).2 = pool := (snd_reading _ _).trans (snd_look _)
      rw [same]
      exact .refl pool
  | .same handle other => by
      have same : (perform (.same handle other) pool).2 = pool := by
        refine (snd_onHandle _ _).trans ?_
        cases pool.handles.get? handle with
        | none => rfl
        | some left => exact (snd_onHandle _ _).trans (snd_look _)
      rw [same]
      exact .refl pool
  | .write handle items => by
      have same : (perform (.write handle items) pool).2 =
          (Operation.write handle fun _ => items).run pool := snd_writing _ _
      rw [same]
      refine .of_run _ ?_
      simp only [Operation.run]
      cases pool.writableCell? handle <;> rfl
  | .push handle item => by
      have same : (perform (.push handle item) pool).2 =
          (Operation.write handle fun items => items ++ [item]).run pool := snd_writing _ _
      rw [same]
      refine .of_run _ ?_
      simp only [Operation.run]
      cases pool.writableCell? handle <;> rfl
  | .hold handle exclusive steps => by
      have same : (perform (.hold handle exclusive steps) pool).2 =
          ((if exclusive then writableCell? else readableCell?) pool handle).elim pool fun cell =>
            (performAll steps (pool.lock { cell, exclusive })).2.unlock cell := by
        cases exclusive
        · exact snd_reading _ _
        · exact snd_writing _ _
      rw [same]
      cases found : (if exclusive then writableCell? else readableCell?) pool handle with
      | none => exact .refl pool
      | some cell =>
          exact .of_hold found (follows_performAll (pool.lock { cell, exclusive }) steps)
termination_by structural step => step

theorem follows_performAll (pool : Pool (List Int)) :
    (steps : List PoolStep) → pool.Follows (performAll steps pool).2
  | [] => .refl pool
  | step :: rest =>
      (follows_perform pool step).trans (follows_performAll (perform step pool).2 rest)
termination_by structural steps => steps

end

end Programs

/-! ## Sharing -/

/-- How handles share payloads at the end of a run. A guard counts as a handle. -/
structure Shares (operations : List (Operation α)) : Prop where
  counted : ∀ name cell, (reached operations).handles.get? name = some cell →
    (reached operations).shareCount cell =
        (reached operations).handles.keys.countP ((reached operations).aliases name) +
          (reached operations).guards.countP (fun guard => guard.cell == cell) ∧
      1 ≤ (reached operations).shareCount cell
  reflexive : ∀ name, (reached operations).handles.contains name = true →
    (reached operations).aliases name name = true
  symmetric : ∀ left right, (reached operations).aliases left right = true →
    (reached operations).aliases right left = true
  transitive : ∀ left middle right, (reached operations).aliases left middle = true →
    (reached operations).aliases middle right = true →
      (reached operations).aliases left right = true
  /-- Two handles stay aliases, or stay apart, as long as neither is rebound. -/
  lasting : ∀ later left right,
    (∀ operation ∈ later, operation.rebound? ≠ some left ∧ operation.rebound? ≠ some right) →
      (reached (operations ++ later)).aliases left right = (reached operations).aliases left right
  /-- The payload of a handle is what its cell began with, changed by the writes that have been
  made since through the handles on that cell. -/
  replayed : ∀ name cell, (reached operations).handles.get? name = some cell →
    ∃ earlier beginning later initial, operations = earlier ++ beginning :: later ∧
      (reached earlier).cells.size = cell ∧
      beginning.initial? (reached earlier) = some initial ∧
      (reached operations).payload cell =
        ((reached (earlier ++ [beginning])).changesOf cell later).foldl
          (fun payload change => change payload) initial
  cloned : ∀ source target cell, (reached operations).handles.get? source = some cell →
    Clones (reached operations) (reached (operations ++ [.clone source target])) source target cell
  detached : ∀ source target cell, (reached operations).readableCell? source = some cell →
    Detaches (reached operations) (reached (operations ++ [.detach source target])) source target
      cell (reached operations).cells.size

theorem Counted.one_le_holders {loose : List Nat} (counted : pool.Counted loose)
    (live : pool.handles.get? name = some cell) : 1 ≤ pool.shareCount cell := by
  have itself : 0 < pool.handles.entries.countP fun handle => handle.2 == cell :=
    List.countP_pos_iff.mpr ⟨_, Table.mem_of_get? live, beq_self_eq_true cell⟩
  rw [counted.counts cell (counted.lt_size live), holders]
  omega

/-- Whatever is done with handles, in whatever order, they share payloads as they should; and
whatever a program does with them is done by such operations. -/
theorem handles_share (operations : List (Operation α)) :
    Shares operations ∧
      ∀ (before : List (Operation (List Int))) (steps : List PoolStep),
        ∃ more, (performAll steps (reached before)).2 = reached (before ++ more) := by
  have counted := counted_empty.afterRun operations
  refine ⟨⟨?_, ?_, ?_, ?_, ?_, ?_, ?_, ?_⟩, ?_⟩
  · intro name cell live
    have all := counted.counts cell (counted.lt_size live)
    rw [counted.holders_eq live] at all
    exact ⟨all, counted.one_le_holders live⟩
  · intro name there
    rw [← Table.isSome_get?] at there
    obtain ⟨cell, live⟩ := Option.isSome_iff_exists.mp there
    exact aliases_iff.mpr ⟨cell, live, live⟩
  · intro left right same
    obtain ⟨cell, onLeft, onRight⟩ := aliases_iff.mp same
    exact aliases_iff.mpr ⟨cell, onRight, onLeft⟩
  · intro left middle right first second
    obtain ⟨cell, onLeft, onMiddle⟩ := aliases_iff.mp first
    obtain ⟨other, stillMiddle, onRight⟩ := aliases_iff.mp second
    obtain rfl : cell = other := Option.some.inj (onMiddle.symm.trans stillMiddle)
    exact aliases_iff.mpr ⟨cell, onLeft, onRight⟩
  · intro later left right kept
    rw [reached, afterRun_append, aliases, aliases,
      get?_afterRun fun operation member => (kept operation member).1,
      get?_afterRun fun operation member => (kept operation member).2]
  · intro name cell live
    obtain ⟨earlier, beginning, later, initial, rfl, size, begins⟩ :=
      counted_empty.exists_beginning (Nat.zero_le cell) (counted.lt_size live)
    refine ⟨earlier, beginning, later, initial, rfl, size, begins, ?_⟩
    have countedEarlier := counted_empty.afterRun earlier
    have begun := countedEarlier.payload_run_new beginning begins
    have inside : cell < (beginning.run (reached earlier)).cells.size := by
      rw [size_run, begins, ← size]
      exact Nat.lt_succ_self _
    rw [size] at begun
    rw [reached, reached, afterRun_append, afterRun_append, ← begun]
    exact (countedEarlier.run beginning).payload_afterRun inside later
  · intro source target cell live
    rw [reached, reached, afterRun_append]
    exact counted.clones live target
  · intro source target cell found
    rw [reached, reached, afterRun_append]
    exact counted.detaches found target
  · intro before steps
    obtain ⟨more, same, -⟩ := follows_performAll (reached before) steps
    exact ⟨more, same.trans (afterRun_append before more).symm⟩

/-- A handle takes the place of an alias of its source, and a detached payload is detached. -/
def detachings : List (Operation (List Int)) :=
  [.create [1] "first", .clone "first" "second", .detach "first" "second",
    .write "second" (7 :: ·), .detach "second" "third", .clone "third" "third",
    .write "third" fun _ => [], .drop "first"]

/-- After the first two operations there are two handles on one cell. A third clone takes the place
of one of them, and leaves the count as it is. -/
theorem handles_share_detachings :
    (reached detachings).handles.get? "second" = some 1 ∧
      (reached detachings).handles.get? "third" = some 2 ∧
      (reached detachings).payload 1 = [7, 1] ∧ (reached detachings).shareCount 2 = 1 ∧
      (reached detachings).readableCell? "third" = some 2 ∧ Shares detachings ∧
      ((reached (detachings.take 2)).shareCount 0 = 2 ∧
        Clones (reached (detachings.take 1)) (reached (detachings.take 2)) "first" "second" 0) ∧
      (reached (detachings.take 2 ++ [.clone "second" "first"])).shareCount 0 = 2 ∧
        Clones (reached (detachings.take 2))
          (reached (detachings.take 2 ++ [.clone "second" "first"])) "second" "first" 0 :=
  ⟨by decide, by decide, by decide, by decide, by decide, (handles_share detachings).1,
    ⟨by decide, (handles_share (detachings.take 1)).1.cloned "first" "second" 0 (by decide)⟩,
    by decide, (handles_share (detachings.take 2)).1.cloned "second" "first" 0 (by decide)⟩

end Pool

end ScopedValues
