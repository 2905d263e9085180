import Mathlib.Data.List.InsertIdx

/-!
Contract: a row of entries that changes while a position passes along it.

Owns what can happen to a row, the entries that are passed, and the losses, which are the
removals of entries that had been passed.

Main statements: an entry that is passed twice was removed and added again in between; in the
end no more entries are missed than were lost; and where nothing was lost, what was passed is
what stands in the row, in order.
-/

set_option autoImplicit false

namespace ScopedValues

/-- What can happen to a row. -/
inductive Incident (α : Type) where
  | added (entry : α)
  | removed (index : Nat) (entry : α)
  | passed (entry : α)
deriving DecidableEq, Repr

/-- What has happened to a row, latest first. -/
abbrev Incidents (α : Type) := List (Incident α)

namespace Incidents

variable {α : Type}

/-- The row as it is now. -/
def row (start : List α) : Incidents α → List α
  | [] => start
  | .added entry :: earlier => row start earlier ++ [entry]
  | .removed index _ :: earlier => (row start earlier).eraseIdx index
  | .passed _ :: earlier => row start earlier

/-- The entries that were passed, in order. There are as many as the position says. -/
def passes : Incidents α → List α
  | [] => []
  | .added _ :: earlier => passes earlier
  | .removed _ _ :: earlier => passes earlier
  | .passed entry :: earlier => passes earlier ++ [entry]

/-- The entries that were added, in order. -/
def additions : Incidents α → List α
  | [] => []
  | .added entry :: earlier => additions earlier ++ [entry]
  | .removed _ _ :: earlier => additions earlier
  | .passed _ :: earlier => additions earlier

/-- The number of removals of entries that had been passed by then. -/
def losses [DecidableEq α] : Incidents α → Nat
  | [] => 0
  | .added _ :: earlier => losses earlier
  | .removed _ entry :: earlier => losses earlier + if entry ∈ passes earlier then 1 else 0
  | .passed _ :: earlier => losses earlier

/-- What is removed or passed stands there, and nothing stands there twice. -/
def Fair (start : List α) : Incidents α → Prop
  | [] => start.Nodup
  | .added entry :: earlier => entry ∉ row start earlier ∧ Fair start earlier
  | .removed index entry :: earlier =>
      (row start earlier)[index]? = some entry ∧ Fair start earlier
  | .passed entry :: earlier =>
      (row start earlier)[(passes earlier).length]? = some entry ∧ Fair start earlier

section General

variable {start : List α} {incidents earlier : Incidents α} {entry : α}

theorem Fair.nodup_row (fair : Fair start incidents) : (row start incidents).Nodup := by
  induction incidents with
  | nil => exact fair
  | cons incident earlier inductionHypothesis =>
      cases incident with
      | added entry =>
          obtain ⟨fresh, fair⟩ := fair
          refine List.nodup_append.mpr ⟨inductionHypothesis fair, by simp, ?_⟩
          rintro old member new last rfl
          exact fresh (List.mem_singleton.mp last ▸ member)
      | removed index entry =>
          exact (inductionHypothesis fair.2).sublist (List.eraseIdx_sublist _ _)
      | passed entry => exact inductionHypothesis fair.2

theorem Fair.of_append (last : Incidents α) (fair : Fair start (last ++ earlier)) :
    Fair start earlier := by
  induction last with
  | nil => exact fair
  | cons incident rest inductionHypothesis =>
      cases incident <;> exact inductionHypothesis fair.2

theorem mem_row (member : entry ∈ row start incidents) : entry ∈ start ++ additions incidents := by
  induction incidents with
  | nil => simpa [additions, row] using member
  | cons incident earlier inductionHypothesis =>
      cases incident with
      | added other =>
          rw [additions, ← List.append_assoc]
          rcases List.mem_append.mp member with old | new
          · exact List.mem_append_left _ (inductionHypothesis old)
          · exact List.mem_append_right _ new
      | removed index other => exact inductionHypothesis (List.mem_of_mem_eraseIdx member)
      | passed other => exact inductionHypothesis member

theorem additions_append (last earlier : Incidents α) :
    additions (last ++ earlier) = additions earlier ++ additions last := by
  induction last with
  | nil => simp [additions]
  | cons incident rest inductionHypothesis =>
      cases incident <;> simp [additions, inductionHypothesis]

theorem exists_of_mem_passes (member : entry ∈ passes incidents) :
    ∃ later earlier, incidents = later ++ .passed entry :: earlier := by
  induction incidents with
  | nil => cases member
  | cons incident earlier inductionHypothesis =>
      have further : entry ∈ passes earlier →
          ∃ later first, incident :: earlier = later ++ .passed entry :: first := by
        intro old
        obtain ⟨later, first, rfl⟩ := inductionHypothesis old
        exact ⟨incident :: later, first, rfl⟩
      cases incident with
      | added other => exact further member
      | removed index other => exact further member
      | passed other =>
          rcases List.mem_append.mp member with old | new
          · exact further old
          · rw [List.mem_singleton.mp new]
            exact ⟨[], earlier, rfl⟩

end General

/-! ## Passing an entry twice -/

/-- What stands at the position and after it. -/
def ahead (start : List α) (incidents : Incidents α) : List α :=
  (row start incidents).drop (passes incidents).length

/-- Only what is added comes to stand ahead. -/
theorem mem_ahead_cons {start : List α} {incident : Incident α} {earlier : Incidents α}
    {entry : α} (member : entry ∈ ahead start (incident :: earlier)) :
    entry ∈ ahead start earlier ∨ incident = .added entry := by
  cases incident with
  | added other =>
      rw [ahead, row, passes, List.drop_append] at member
      rcases List.mem_append.mp member with old | new
      · exact .inl old
      · exact .inr (congrArg _ (List.mem_singleton.mp (List.mem_of_mem_drop new)).symm)
  | removed index other =>
      rw [ahead, row, passes, List.mem_iff_getElem?] at member
      obtain ⟨place, stands⟩ := member
      rw [List.getElem?_drop, List.getElem?_eraseIdx] at stands
      left
      rw [ahead, List.mem_iff_getElem?]
      split at stands
      · exact ⟨place, by rwa [List.getElem?_drop]⟩
      · exact ⟨place + 1, by rwa [List.getElem?_drop, ← Nat.add_assoc]⟩
  | passed other =>
      rw [ahead, row, passes, List.length_append, ← List.drop_drop] at member
      exact .inl (List.mem_of_mem_drop member)

/-- An entry that has been removed and added again. -/
def Readded (entry : α) (incidents : Incidents α) : Prop :=
  ∃ last middle first index,
    incidents = last ++ .added entry :: (middle ++ .removed index entry :: first)

section Twice

variable {start : List α} {later earlier : Incidents α} {entry : α}

theorem Fair.tail {incident : Incident α} (fair : Fair start (incident :: earlier)) :
    Fair start earlier :=
  Fair.of_append [incident] fair

/-- What has been passed stands there until it is removed. -/
theorem Fair.removed_of_gone (fair : Fair start (later ++ .passed entry :: earlier))
    (gone : entry ∉ row start (later ++ .passed entry :: earlier)) :
    ∃ last index first, later = last ++ .removed index entry :: first := by
  induction later with
  | nil => exact absurd (List.mem_of_getElem? fair.1) gone
  | cons incident rest inductionHypothesis =>
      have further : entry ∉ row start (rest ++ .passed entry :: earlier) →
          ∃ last index first, incident :: rest = last ++ .removed index entry :: first := by
        intro missing
        obtain ⟨last, index, first, rfl⟩ := inductionHypothesis fair.tail missing
        exact ⟨incident :: last, index, first, rfl⟩
      cases incident with
      | added other => exact further fun there => gone (List.mem_append_left _ there)
      | removed index other =>
          by_cases there : entry ∈ row start (rest ++ .passed entry :: earlier)
          · -- Only what stood at the index has gone.
            obtain ⟨place, stands⟩ := List.mem_iff_getElem?.mp there
            have same : place = index := by
              by_contra different
              exact gone (List.mem_eraseIdx_iff_getElem?.mpr ⟨place, different, stands⟩)
            have found : some other = some entry := fair.1.symm.trans (same ▸ stands)
            cases found
            exact ⟨[], index, rest, rfl⟩
          · exact further there
      | passed other => exact further gone

/-- What has been passed does not stand ahead, unless it was removed and added again. -/
theorem Fair.readded_of_ahead (fair : Fair start (later ++ .passed entry :: earlier))
    (again : entry ∈ ahead start (later ++ .passed entry :: earlier)) : Readded entry later := by
  induction later with
  | nil =>
      -- It stands before the position, and nothing stands there twice.
      obtain ⟨stands, before⟩ := fair
      obtain ⟨present, rfl⟩ := List.getElem?_eq_some_iff.mp stands
      obtain ⟨place, second⟩ := List.mem_iff_getElem?.mp again
      rw [List.nil_append, ahead, row, passes, List.getElem?_drop, List.length_append] at second
      have same := (List.getElem?_inj present before.nodup_row).mp (stands.trans second.symm)
      simp at same
      omega
  | cons incident rest inductionHypothesis =>
      rcases mem_ahead_cons again with old | rfl
      · obtain ⟨last, middle, first, index, rfl⟩ := inductionHypothesis fair.tail old
        exact ⟨incident :: last, middle, first, index, rfl⟩
      · obtain ⟨last, index, first, rfl⟩ := fair.tail.removed_of_gone fair.1
        exact ⟨[], last, first, index, rfl⟩

/-- An entry that is passed twice was removed and added again in between. -/
theorem Fair.readded (fair : Fair start (.passed entry :: (later ++ .passed entry :: earlier))) :
    Readded entry later := by
  obtain ⟨stands, before⟩ := fair
  refine before.readded_of_ahead (List.mem_iff_getElem?.mpr ⟨0, ?_⟩)
  rw [ahead, List.getElem?_drop]
  exact stands

/-- Where nothing is added that was there before, nothing is passed twice. -/
theorem Fair.nodup_passes (fair : Fair start earlier) (fresh : (start ++ additions earlier).Nodup) :
    (passes earlier).Nodup := by
  induction earlier with
  | nil => exact List.nodup_nil
  | cons incident earlier inductionHypothesis =>
      cases incident with
      | added other =>
          rw [additions, ← List.append_assoc] at fresh
          exact inductionHypothesis fair.tail (List.nodup_append.mp fresh).1
      | removed index other => exact inductionHypothesis fair.tail fresh
      | passed other =>
          refine List.nodup_append.mpr ⟨inductionHypothesis fair.tail fresh, by simp, ?_⟩
          rintro old member new last rfl
          obtain rfl := List.mem_singleton.mp last
          obtain ⟨later, first, rfl⟩ := exists_of_mem_passes member
          obtain ⟨last, middle, before, index, rfl⟩ := fair.readded
          -- It was there when it was passed first, and it was added later on.
          have there := mem_row (List.mem_of_getElem? (fair.tail.of_append _).1)
          simp only [additions, additions_append] at fresh
          rw [← List.append_assoc] at fresh
          refine (List.nodup_append.mp fresh).2.2 old there old ?_ rfl
          simp

end Twice

/-! ## Missing entries -/

section Missing

variable [DecidableEq α] {start : List α} {incidents : Incidents α}

omit [DecidableEq α] in
theorem countP_take_le (listed : List α) (position : Nat) (counts : α → Bool) {index : Nat}
    {entry : α} (stands : listed[index]? = some entry) :
    (listed.take position).countP counts ≤
      ((listed.eraseIdx index).take position).countP counts + if counts entry then 1 else 0 := by
  induction listed generalizing index position with
  | nil => simp
  | cons head rest inductionHypothesis =>
      cases position with
      | zero => simp
      | succ position =>
          cases index with
          | zero =>
              obtain rfl : head = entry := Option.some.inj stands
              have shorter : (rest.take position).countP counts ≤
                  (rest.take (position + 1)).countP counts :=
                (List.take_sublist_take_left (Nat.le_succ position)).countP_le
              simpa [List.countP_cons] using shorter
          | succ index =>
              have later := inductionHypothesis position stands
              simp only [List.take_succ_cons, List.eraseIdx_cons_succ, List.countP_cons]
              omega

/-- Of what stands before the position, all but the losses has been passed; and the position is
beyond the end by no more than the losses. -/
theorem Fair.length_passes_le (fair : Fair start incidents) :
    (passes incidents).length ≤ losses incidents +
      ((row start incidents).take (passes incidents).length).countP (· ∈ passes incidents) := by
  induction incidents with
  | nil => simp [passes]
  | cons incident earlier inductionHypothesis =>
      have before := inductionHypothesis fair.tail
      cases incident with
      | added entry =>
          rw [passes, losses, row, List.take_append, List.countP_append]
          omega
      | removed index entry =>
          have taken := countP_take_le (row start earlier) (passes earlier).length
            (· ∈ passes earlier) fair.1
          simp only [decide_eq_true_eq] at taken
          rw [passes, losses, row]
          omega
      | passed entry =>
          have more : ((row start earlier).take (passes earlier).length).countP
                (· ∈ passes earlier) ≤
              ((row start earlier).take (passes earlier).length).countP
                (· ∈ passes earlier ++ [entry]) :=
            List.countP_mono_left fun other _ passed => by
              rw [decide_eq_true_eq] at passed ⊢
              exact List.mem_append_left _ passed
          have here : [entry].countP (· ∈ passes earlier ++ [entry]) = 1 := by simp
          rw [passes, losses, row, List.length_append, List.length_singleton, List.take_add_one,
            fair.1, Option.toList_some, List.countP_append, here]
          omega

/-- At the end of the row, no more is missed than was lost. -/
theorem Fair.missed_le (fair : Fair start incidents)
    (finished : (row start incidents).length ≤ (passes incidents).length) :
    (row start incidents).countP (· ∉ passes incidents) ≤ losses incidents := by
  have bound := fair.length_passes_le
  have split : (row start incidents).length = _ :=
    List.length_eq_countP_add_countP (decide <| · ∈ passes incidents)
  rw [List.take_of_length_le finished] at bound
  simp only [decide_eq_true_eq] at split
  omega

/-- Where nothing was lost, all that stands before the position was passed, in order. -/
theorem Fair.passes_eq_take (fair : Fair start incidents) (whole : losses incidents = 0) :
    passes incidents = (row start incidents).take (passes incidents).length := by
  induction incidents with
  | nil => simp [passes]
  | cons incident earlier inductionHypothesis =>
      cases incident with
      | added entry =>
          have before := inductionHypothesis fair.tail whole
          have inside := congrArg List.length before
          rw [List.length_take] at inside
          rw [passes, row, List.take_append_of_le_length (by omega)]
          exact before
      | removed index entry =>
          obtain ⟨none, kept⟩ := Nat.add_eq_zero_iff.mp whole
          have before := inductionHypothesis fair.tail none
          have unpassed : entry ∉ passes earlier := fun passed => by simp [passed] at kept
          have later : (passes earlier).length ≤ index := by
            by_contra sooner
            rw [Nat.not_le] at sooner
            apply unpassed
            rw [before]
            refine List.mem_iff_getElem?.mpr ⟨index, ?_⟩
            rw [List.getElem?_take_of_lt sooner]
            exact fair.1
          rw [passes, row, List.take_eraseIdx_eq_take_of_le _ _ _ later]
          exact before
      | passed entry =>
          have before := inductionHypothesis fair.tail whole
          rw [passes, row, List.length_append, List.length_singleton, List.take_add_one, fair.1,
            ← before]
          rfl

/-- Nothing is lost where nothing is removed before the position. -/
theorem Fair.losses_eq_zero (fair : Fair start incidents)
    (behind : ∀ later index entry earlier,
      incidents = later ++ .removed index entry :: earlier → (passes earlier).length ≤ index) :
    losses incidents = 0 := by
  induction incidents with
  | nil => rfl
  | cons incident earlier inductionHypothesis =>
      have none : losses earlier = 0 := inductionHypothesis fair.tail
        fun later index entry first same =>
          behind (incident :: later) index entry first (congrArg (incident :: ·) same)
      cases incident with
      | added entry => exact none
      | removed index entry =>
          have unpassed : entry ∉ passes earlier := by
            intro passed
            rw [fair.tail.passes_eq_take none] at passed
            obtain ⟨place, stands⟩ := List.mem_iff_getElem?.mp passed
            have sooner : place < (passes earlier).length := by
              by_contra later
              rw [List.getElem?_take, if_neg later] at stands
              cases stands
            rw [List.getElem?_take_of_lt sooner] at stands
            obtain ⟨present, -⟩ := List.getElem?_eq_some_iff.mp stands
            have same : place = index :=
              (List.getElem?_inj present fair.tail.nodup_row).mp (stands.trans fair.1.symm)
            have later := behind [] index entry earlier rfl
            omega
          rw [losses, none, if_neg unpassed]
      | passed entry => exact none

/-- At the end of the row, where nothing was lost, all of it was passed, in order. -/
theorem Fair.passes_eq_row (fair : Fair start incidents) (whole : losses incidents = 0)
    (finished : (row start incidents).length ≤ (passes incidents).length) :
    passes incidents = row start incidents := by
  rw [fair.passes_eq_take whole, List.take_of_length_le finished]

end Missing

end Incidents

end ScopedValues
