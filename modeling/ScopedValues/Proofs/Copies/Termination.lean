import ScopedValues.Proofs.Copies.Sharing
import ScopedValues.Proofs.Storage.Cycles

/-!
Contract: which values can be copied.

Owns the step from a payload to those that it hands over, the values that hand over to no
cycle, and the copies that come to an end.

Main statements: a copy comes to an answer exactly if what it renews hands over to no cycle
and to nothing that is lent out; a copy that hands over to no cycle ends, with an answer or
at something lent out; and where nothing is lent out, a copy that meets a cycle never ends.
-/

set_option autoImplicit false

namespace ScopedValues

namespace Store

variable {store : Store} {a b : Addr}

/-- An element or binding of the payload at `a` is a tuple with `b` among its addresses. -/
def HandsOver (store : Store) (a b : Addr) : Prop :=
  b ∈ store.handed a

theorem HandsOver.edge (hands : store.HandsOver a b) : store.Edge a b :=
  edge_of_mem_handed hands

/-! ## The trial of a detachment -/

/-- Fuel is never short, so the trial of an address is what the trials of the next make it. -/
theorem trial_eq (typed : store.Typed) (present : a < store.size) :
    store.trial a = store.free a >>= fun _ => forM (store.handed a) store.trial := by
  rw [← trialWithin_eq_trial typed present (Nat.le_succ store.size), trialWithin]
  rfl

/-- Where nothing is lent out, a trial can only run out of fuel. -/
theorem failsOnly_trialWithin (idle : store.lent = []) (fuel : Nat) :
    ∀ a, FailsOnly (· = .endless) (store.trialWithin fuel a) := by
  have free : ∀ a, store.free a = .ok () := fun a => (free_eq_ok_iff store a).mpr (by simp [idle])
  induction fuel with
  | zero => exact fun _ => .error rfl
  | succ fuel inductionHypothesis =>
      intro a
      rw [trialWithin, free]
      exact .forM fun b _ => inductionHypothesis b

theorem forM_eq_ok_iff {β : Type} {visit : β → Except Fault Unit} {items : List β} :
    forM items visit = .ok () ↔ ∀ x ∈ items, visit x = .ok () := by
  induction items with
  | nil => exact iff_of_true rfl (by simp)
  | cons x rest inductionHypothesis =>
      rw [List.forM_cons, List.forall_mem_cons, ← inductionHypothesis]
      cases first : visit x with
      | error fault => exact iff_of_false (fun impossible => by cases impossible) (by simp)
      | ok _ => exact ⟨fun rest => ⟨rfl, rest⟩, fun both => both.2⟩

theorem trialWithin_succ_eq_ok_iff {fuel : Nat} :
    store.trialWithin (fuel + 1) a = .ok () ↔
      a ∉ store.lent ∧ ∀ b, store.HandsOver a b → store.trialWithin fuel b = .ok () := by
  have each : (∀ b, store.HandsOver a b → store.trialWithin fuel b = .ok ()) ↔
      forM (store.handed a) (store.trialWithin fuel) = .ok () := forM_eq_ok_iff.symm
  rw [trialWithin, ← free_eq_ok_iff, each]
  cases free : store.free a with
  | error fault => exact iff_of_false (fun impossible => by cases impossible) (by simp)
  | ok _ => exact ⟨fun rest => ⟨rfl, rest⟩, fun both => both.2⟩

theorem walk_trial (store : Store) :
    Walk store.HandsOver (· ∉ store.lent) fun fuel a => store.trialWithin fuel a = .ok () where
  start _ impossible := by cases impossible
  go _ _ := trialWithin_succ_eq_ok_iff

theorem trial_eq_ok_iff (typed : store.Typed) (present : a < store.size) :
    store.trial a = .ok () ↔ LeadsToNoCycle store.HandsOver a ∧
      ∀ b, Relation.ReflTransGen store.HandsOver a b → b ∉ store.lent := by
  rw [← (walk_trial store).exists_done_iff (fun _ _ _ hands => typed.edge_lt hands.edge) present]
  refine ⟨fun succeeds => ⟨store.size, succeeds⟩, ?_⟩
  rintro ⟨fuel, succeeds⟩
  rw [← trialWithin_eq_trial typed present (Nat.le_max_right fuel store.size)]
  exact (walk_trial store).mono (Nat.le_max_left fuel store.size) succeeds

/-- A trial that meets no cycle ends, if only at something that is lent out. -/
theorem failsOnly_trial (typed : store.Typed) (present : a < store.size)
    (straight : LeadsToNoCycle store.HandsOver a) : FailsOnly (· = .conflict) (store.trial a) := by
  refine straight.induction (fun _ _ _ hands => typed.edge_lt hands.edge)
    (motive := fun a => FailsOnly (· = .conflict) (store.trial a)) ?_ present
  intro a present inductionHypothesis
  rw [trial_eq typed present]
  refine .bind ?_ fun _ _ => .forM inductionHypothesis
  rw [free]
  split
  · exact .error rfl
  · exact .ok ()

end Store

open Store

/-! ## Copies -/

namespace CopyMode

variable {store : Store} {value : Value}

/-- Nothing that this copy of a value renews hands over to a cycle. -/
def MeetsNoCycle (mode : CopyMode) (store : Store) (value : Value) : Prop :=
  ∀ a ∈ mode.renewed value, LeadsToNoCycle store.HandsOver a

/-- Nothing that this copy of a value renews, or is handed over to it, is lent out. -/
def MeetsNothingLent (mode : CopyMode) (store : Store) (value : Value) : Prop :=
  ∀ a ∈ mode.renewed value, ∀ b, Relation.ReflTransGen store.HandsOver a b → b ∉ store.lent

/-- The copy of a value in this mode, with fuel that bounds the nesting. -/
def attempt (mode : CopyMode) (store : Store) (value : Value) (fuel : Nat) :
    Except Fault (Value × Store) :=
  mode.renew (detachWithin fuel) value store

theorem attempt_size (mode : CopyMode) (store : Store) (value : Value) :
    mode.attempt store value store.size = mode.run store value :=
  (run_eq_renew mode store value).symm

theorem verdict_attempt (typed : store.Typed) (held : value.Held store) (mode : CopyMode)
    (fuel : Nat) :
    verdict (mode.attempt store value fuel) =
      forM (mode.renewed value) (store.trialWithin fuel) :=
  (renew_attempts typed held mode fuel store (.refl store)).1

theorem verdict_eq_error_iff {α : Type} {outcome : Except Fault α} {fault : Fault} :
    verdict outcome = .error fault ↔ outcome = .error fault := by
  cases outcome with
  | error other => exact ⟨fun same => by cases same; rfl, fun same => by cases same; rfl⟩
  | ok x => exact iff_of_false (fun impossible => by cases impossible) (by simp)

theorem failsOnly_of_verdict {α : Type} {allowed : Fault → Prop} {outcome : Except Fault α}
    (fails : FailsOnly allowed (verdict outcome)) : FailsOnly allowed outcome :=
  fun fault same => fails fault (verdict_eq_error_iff.mpr same)

/-- A copy comes to an answer exactly if it meets no cycle and nothing that is lent out. -/
theorem run_ok_iff (typed : store.Typed) (held : value.Held store) (mode : CopyMode) :
    (∃ result, mode.run store value = .ok result) ↔
      mode.MeetsNoCycle store value ∧ mode.MeetsNothingLent store value := by
  have trials : (∃ result, mode.run store value = .ok result) ↔
      ∀ a ∈ mode.renewed value, store.trial a = .ok () := by
    rw [← forM_eq_ok_iff, ← verdict_run typed held]
    refine ⟨?_, exists_of_verdict⟩
    rintro ⟨result, done⟩
    rw [done]
    rfl
  rw [trials]
  have each : ∀ a ∈ mode.renewed value, (store.trial a = .ok () ↔ _) := fun a member =>
    trial_eq_ok_iff typed (renewed_lt held mode a member)
  constructor
  · intro succeeds
    exact ⟨fun a member => ((each a member).mp (succeeds a member)).1,
      fun a member => ((each a member).mp (succeeds a member)).2⟩
  · rintro ⟨straight, free⟩ a member
    exact (each a member).mpr ⟨straight a member, free a member⟩

/-- A copy that meets no cycle ends, if only at something that is lent out. -/
theorem terminates_of_meetsNoCycle (typed : store.Typed) (held : value.Held store)
    {mode : CopyMode} (straight : mode.MeetsNoCycle store value) :
    Terminates (mode.attempt store value) := by
  refine ⟨store.size, fun endless => ?_⟩
  have fails : FailsOnly (· = .conflict) (mode.attempt store value store.size) := by
    refine failsOnly_of_verdict ?_
    rw [verdict_attempt typed held]
    exact .forM fun a member =>
      failsOnly_trial typed (renewed_lt held mode a member) (straight a member)
  cases fails .endless endless

/-- Where nothing is lent out, a copy that ends comes to an answer, and it ends exactly if it
meets no cycle. -/
theorem terminates_iff (typed : store.Typed) (idle : store.lent = []) (held : value.Held store)
    (mode : CopyMode) :
    (Terminates (mode.attempt store value) ↔ mode.MeetsNoCycle store value) ∧
      (Terminates (mode.attempt store value) ↔ ∃ result, mode.run store value = .ok result) := by
  have answers : Terminates (mode.attempt store value) ↔
      ∃ result, mode.run store value = .ok result := by
    have fails : ∀ fuel, FailsOnly (· = .endless) (mode.attempt store value fuel) := by
      intro fuel
      refine failsOnly_of_verdict ?_
      rw [verdict_attempt typed held]
      exact .forM fun a _ => failsOnly_trialWithin idle fuel a
    rw [FailsOnly.terminates_iff fails]
    constructor
    · rintro ⟨fuel, result, done⟩
      exact ⟨result, run_of_renew typed held done⟩
    · rintro ⟨result, done⟩
      exact ⟨store.size, result, by rw [attempt_size, done]⟩
  refine ⟨answers.trans ((run_ok_iff typed held mode).trans ?_), answers⟩
  refine ⟨fun both => both.1, fun straight => ⟨straight, ?_⟩⟩
  intro a _ b _
  simp [idle]

/-- A copy of a value other than a tuple keeps the value. -/
theorem meetsNoCycle_plain_iff (store : Store) (value : Value) :
    CopyMode.plain.MeetsNoCycle store value ↔
      (∀ items, value ≠ .tuple items) ∨ CopyMode.deep.MeetsNoCycle store value := by
  have nothing : value.handed = [] → (CopyMode.plain.MeetsNoCycle store value) := by
    intro none a member
    rw [renewed, none] at member
    cases member
  cases value with
  | tuple items =>
      refine ⟨fun straight => Or.inr straight, fun either => ?_⟩
      rcases either with single | straight
      · exact absurd rfl (single items)
      · exact straight
  | scalar x => exact iff_of_true (nothing rfl) (.inl fun _ impossible => by cases impossible)
  | list a => exact iff_of_true (nothing rfl) (.inl fun _ impossible => by cases impossible)
  | map a => exact iff_of_true (nothing rfl) (.inl fun _ impossible => by cases impossible)

/-- Cycles that lead through handles in elements and bindings alone are met by no copy. -/
theorem meetsNoCycle_of_direct (direct : ∀ a ∈ value.addresses, ∀ p q,
      store.Reaches a p → store.HandsOver p q → ¬ store.Reaches q p) (mode : CopyMode) :
    mode.MeetsNoCycle store value := by
  intro a member b led cycle
  have named : a ∈ value.addresses := by
    cases mode with
    | deep => exact member
    | plain => exact value.handed_subset member
  have edges : ∀ p q, store.HandsOver p q → store.Edge p q := fun _ _ hands => hands.edge
  obtain ⟨c, hands, back⟩ := Relation.TransGen.head'_iff.mp cycle
  exact direct a named b c (Relation.ReflTransGen.mono edges _ _ led) hands
    (Relation.ReflTransGen.mono edges _ _ back)

end CopyMode

end ScopedValues
