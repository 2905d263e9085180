import ScopedValues.Proofs.Copies.Sharing
import ScopedValues.Proofs.Views.Following

/-!
Contract: what a copy shows of its source.

Owns the tree of a copy, what can be seen of a value, and whole storages of which one
preserves a region of the other.

Main statements: a copy looks like its source; storages of which one preserves a region
of the other show the copies of the region's values alike.

Trees carry notes that depend on a map's parent alone, as those of the plain and of
the inspected form do.
-/

set_option autoImplicit false

namespace ScopedValues

open Store

/-! ## The tree of a copy -/

section Tree

variable {ν : Type} {note : Note ν}

/-- What is noted about a map depends on its parent alone. -/
def Store.OfParent (note : Note ν) : Prop :=
  ∀ a b inner other, other.parent = inner.parent → note b other = note a inner

theorem Value.unfoldEntriesBy_eq_zip (follow : Addr → Except Fault (Tree ν))
    (entries : List (String × Value)) :
    unfoldEntriesBy follow entries = do
      let trees ← (entries.map Prod.snd).mapM (unfoldBy follow)
      return (entries.map Prod.fst).zip trees := by
  induction entries with
  | nil => rfl
  | cons entry rest inductionHypothesis =>
      obtain ⟨key, value⟩ := entry
      rw [unfoldEntriesBy, inductionHypothesis, List.map_cons, List.mapM_cons]
      simp only [bind_assoc, pure_bind, List.map_cons, List.zip_cons_cons]

variable {before after : Store}

theorem readPayload_of_free {store : Store} {a : Addr} (free : a ∉ store.lent)
    {payload : Payload} (stored : store.payloads[a]? = some payload) :
    store.readPayload a = .ok payload := by
  rw [readPayload, (free_eq_ok_iff store a).mpr free, stored]
  rfl

mutual

/-- Whatever the fuel, following a copy gives what following its source gives. -/
theorem Copied.unfoldBy_eq (view : Agree (· < before.size) before after)
    (lent : ∀ a ∈ after.lent, a < before.size) (ofParent : OfParent note) :
    ∀ {mode : CopyMode} {value copy : Value}, Copied before after mode value copy →
      value.Within (· < before.size) → ∀ fuel,
        copy.unfoldBy (after.followWithin note fuel) =
          value.unfoldBy (before.followWithin note fuel)
  | _, _, _, .scalar _ _, _, _ => rfl
  | _, _, _, .tuple elements, within, fuel => by
      rw [Value.within_tuple] at within
      rw [Value.unfoldBy, Value.unfoldBy, Value.unfoldAllBy_eq_mapM, Value.unfoldAllBy_eq_mapM,
        elements.mapM_unfoldBy_eq view lent ofParent within fuel]
  | _, _, _, .sharedList a, within, fuel => view.followWithin_eq note fuel a (within a (by simp))
  | _, _, _, .sharedMap a, within, fuel => view.followWithin_eq note fuel a (within a (by simp))
  | _, _, _, .freshList _ _ _ _ _, _, 0 => rfl
  | _, _, _, .freshMap _ _ _ _ _ _ _, _, 0 => rfl
  | _, _, _, @Copied.freshList _ _ a b _ _ free source made fresh elements, within, fuel + 1 => by
      have freeCopy : b ∉ after.lent := fun held => Nat.not_lt_of_ge fresh (lent b held)
      have sourceRead := readPayload_of_free free source
      have inside : ∀ value ∈ (Payload.list _).values, value.Within (· < before.size) :=
        view.values_within (within a (by simp)) sourceRead
      show after.followWithin note (fuel + 1) b = before.followWithin note (fuel + 1) a
      rw [followWithin_succ, followWithin_succ, sourceRead, readPayload_of_free freeCopy made]
      show followPayload note _ b (.list _) = followPayload note _ a (.list _)
      rw [followPayload, followPayload, Value.unfoldAllBy_eq_mapM, Value.unfoldAllBy_eq_mapM,
        elements.mapM_unfoldBy_eq view lent ofParent inside fuel]
  | _, _, _, @Copied.freshMap _ _ a b inner copy free source made fresh parent keys elements,
      within, fuel + 1 => by
      have freeCopy : b ∉ after.lent := fun held => Nat.not_lt_of_ge fresh (lent b held)
      have sourceRead := readPayload_of_free free source
      have inside : ∀ value ∈ (Payload.scope inner).values, value.Within (· < before.size) :=
        view.values_within (within a (by simp)) sourceRead
      have sameKeys : copy.bindings.entries.map Prod.fst = inner.bindings.entries.map Prod.fst :=
        keys
      show after.followWithin note (fuel + 1) b = before.followWithin note (fuel + 1) a
      rw [followWithin_succ, followWithin_succ, sourceRead, readPayload_of_free freeCopy made]
      show followPayload note _ b (.scope copy) = followPayload note _ a (.scope inner)
      rw [followPayload, followPayload, ofParent a b inner copy parent,
        Value.unfoldEntriesBy_eq_zip, Value.unfoldEntriesBy_eq_zip, sameKeys,
        elements.mapM_unfoldBy_eq view lent ofParent inside fuel]

theorem CopiedAll.mapM_unfoldBy_eq (view : Agree (· < before.size) before after)
    (lent : ∀ a ∈ after.lent, a < before.size) (ofParent : OfParent note) :
    ∀ {mode : CopyMode} {items copies : List Value}, CopiedAll before after mode items copies →
      (∀ item ∈ items, item.Within (· < before.size)) → ∀ fuel,
        copies.mapM (Value.unfoldBy (after.followWithin note fuel)) =
          items.mapM (Value.unfoldBy (before.followWithin note fuel))
  | _, _, _, .nil _, _, _ => rfl
  | _, _, _, .cons head rest, within, fuel => by
      rw [List.forall_mem_cons] at within
      rw [List.mapM_cons, List.mapM_cons, head.unfoldBy_eq view lent ofParent within.1 fuel,
        rest.mapM_unfoldBy_eq view lent ofParent within.2 fuel]

end

/-- Storage that was only added to shows all of its payloads as before. -/
theorem Store.Extends.agree (extension : before.Extends after) (typed : before.Typed) :
    Agree (· < before.size) before after where
  size := extension.size
  present _ inside := inside
  closed := typed.closed
  payloads := extension.old
  lent a _ := by rw [extension.lent]

/-- A copy has the tree of its source. -/
theorem Copied.unfold_eq (whole : before.Whole) (extension : before.Extends after)
    (ofParent : OfParent note) {mode : CopyMode} {value copy : Value}
    (copied : Copied before after mode value copy) (held : value.Held before) :
    after.unfold note copy = before.unfold note value := by
  have view := extension.agree whole.toTyped
  have larger := extension.size
  rw [unfold, copied.unfoldBy_eq view (extension.lent ▸ whole.lent) ofParent held.within]
  refine Value.unfoldBy_congr (fun a inside => ?_) value held.within
  exact followWithin_eq_of_size_le view.present view.closed note (by omega) (by omega) a inside

end Tree

/-! ## What can be seen of a value -/

/-- The kind of a value and its forms, as far as they come to an end. -/
structure Picture where
  tag : Tag
  text : Except Fault String
  inspected : Except Fault (Option String)

namespace Store

def picture (store : Store) (value : Value) : Picture :=
  ⟨value.tag, store.text value, store.inspect? value⟩

/-- What can be seen of a copy that has just been made. -/
def pictured (outcome : Except Fault (Value × Store)) : Except Fault Picture :=
  outcome.map fun made => made.2.picture made.1

variable {region : Addr → Prop} {before after : Store}

theorem Agree.picture_eq (view : Agree region before after) {value : Value}
    (within : value.Within region) : after.picture value = before.picture value := by
  rw [picture, picture, text, text, inspect?, inspect?, tree, tree, view.unfold_eq _ within,
    view.unfold_eq _ within]

/-- A copy looks like its source. -/
theorem picture_copied (whole : before.Whole) (extension : before.Extends after)
    {mode : CopyMode} {value copy : Value} (copied : Copied before after mode value copy)
    (held : value.Held before) : after.picture copy = before.picture value := by
  have parents : OfParent fun _ inner => (.ok inner.parent : Except Fault (Option Addr)) :=
    fun _ _ _ _ same => congrArg Except.ok same
  have roots : OfParent fun _ inner => (.ok inner.parent.isSome : Except Fault Bool) :=
    fun _ _ _ _ same => congrArg (fun parent => Except.ok parent.isSome) same
  rw [picture, picture, text, text, inspect?, inspect?, tree, tree, copied.tag_eq,
    copied.unfold_eq whole extension parents held, copied.unfold_eq whole extension roots held]

/-- Copying shows its source, unless what the copy renews does not come to an end. -/
theorem pictured_copy {store : Store} (whole : store.Whole) {value : Value}
    (held : value.Held store) :
    pictured (store.copy value) =
      (forM value.handed store.trial).map fun _ => store.picture value := by
  have outcome : verdict (store.copy value) = forM value.handed store.trial :=
    CopyMode.verdict_run whole.toTyped held .plain
  rw [← outcome]
  cases ran : store.copy value with
  | error fault => rfl
  | ok made =>
      obtain ⟨copy, after⟩ := made
      obtain ⟨renewal, copied⟩ := CopyMode.run_ok whole.toTyped held .plain ran
      exact congrArg Except.ok (picture_copied whole renewal.extension copied held)

theorem Agree.trial_eq (view : Agree region before after) (typed : before.Typed) {a : Addr}
    (inside : region a) : after.trial a = before.trial a := by
  have within : ∀ fuel b, region b → after.trialWithin fuel b = before.trialWithin fuel b := by
    intro fuel
    induction fuel with
    | zero => exact fun _ _ => rfl
    | succ fuel inductionHypothesis =>
        intro b insideToo
        have handed : after.handed b = before.handed b := by
          rw [Store.handed, Store.handed, values_eq_of_payload (view.payloads b insideToo)]
        rw [trialWithin, trialWithin, view.free_eq insideToo, handed,
          forM_congr fun c member => inductionHypothesis c
            (view.closed b insideToo c (edge_of_mem_handed member))]
  rw [trial, within _ a inside, trialWithin_eq_trial typed (view.present a inside) view.size]

/-- Whole storages of which the second still shows what the region of the first shows. -/
structure Preserves (region : Addr → Prop) (before after : Store) : Prop
    extends Agree region before after where
  whole : before.Whole
  wholeAfter : after.Whole
  retains : before.Retains after

/-- Preserved storage shows the copies of its values alike. -/
theorem Preserves.pictured_copy_eq (preserves : Preserves region before after) {value : Value}
    (held : value.Held before) (within : value.Within region) :
    pictured (after.copy value) = pictured (before.copy value) := by
  have trials : forM value.handed after.trial = forM value.handed before.trial :=
    forM_congr fun a member => preserves.trial_eq preserves.whole.toTyped
      (within a (value.handed_subset member))
  rw [pictured_copy preserves.wholeAfter (held.retain preserves.retains),
    pictured_copy preserves.whole held, trials, preserves.picture_eq within]

end Store

end ScopedValues
