import Mathlib.Data.Finset.Card
import Mathlib.Order.Monotone.Basic
import ScopedValues.Error

/-!
Contract: how much fuel a walk through finite storage needs.

Owns the order between the outcomes of one walk with less and with more fuel, and the
bound on the fuel that makes a difference.

Main statement: a walk whose next round looks only at answers for one finite region
gives the same answers with all fuel from the size of the region on, whether it comes
to an end there or not.
-/

set_option autoImplicit false

namespace ScopedValues

/-- `longer` is the same outcome as `shorter`, unless `shorter` has run out of fuel. -/
def Settles {β : Type} (shorter longer : Except Fault β) : Prop :=
  shorter = .error .endless ∨ longer = shorter

namespace Settles

variable {α β : Type}

theorem refl (outcome : Except Fault β) : Settles outcome outcome :=
  Or.inr rfl

theorem endless (outcome : Except Fault β) : Settles (.error .endless) outcome :=
  Or.inl rfl

theorem bind {shorter longer : Except Fault α} {next after : α → Except Fault β}
    (first : Settles shorter longer) (rest : ∀ x, Settles (next x) (after x)) :
    Settles (shorter >>= next) (longer >>= after) := by
  rcases first with rfl | rfl
  · exact endless _
  · cases longer with
    | error fault => exact refl _
    | ok x => exact rest x

theorem mapM {shorter longer : α → Except Fault β} {items : List α}
    (each : ∀ x ∈ items, Settles (shorter x) (longer x)) :
    Settles (items.mapM shorter) (items.mapM longer) := by
  induction items with
  | nil => exact refl _
  | cons x rest inductionHypothesis =>
      rw [List.forall_mem_cons] at each
      rw [List.mapM_cons, List.mapM_cons]
      exact each.1.bind fun _ => (inductionHypothesis each.2).bind fun _ => refl _

theorem eq_of_ok {shorter longer : Except Fault β} {x : β} (settles : Settles shorter longer)
    (ok : shorter = .ok x) : longer = .ok x := by
  rcases settles with rfl | rfl
  · cases ok
  · exact ok

end Settles

section Bound

variable {ι β : Type} {solve : Nat → ι → Except Fault β}

theorem settles_of_le (solve : Nat → ι → Except Fault β)
    (settles : ∀ fuel i, Settles (solve fuel i) (solve (fuel + 1) i)) {fuel more : Nat}
    (le : fuel ≤ more) (i : ι) : Settles (solve fuel i) (solve more i) := by
  induction le with
  | refl => exact .refl _
  | step _ inductionHypothesis =>
      rcases inductionHypothesis with stuck | same
      · exact Or.inl stuck
      · rw [← same]
        exact settles _ i

open Classical in
/-- The questions of a region that are answered with this fuel. -/
noncomputable def answered (region : Finset ι) (solve : Nat → ι → Except Fault β) (fuel : Nat) :
    Finset ι :=
  region.filter fun i => solve fuel i ≠ .error .endless

theorem mem_answered {region : Finset ι} {fuel : Nat} {i : ι} :
    i ∈ answered region solve fuel ↔ i ∈ region ∧ solve fuel i ≠ .error .endless := by
  simp [answered]

theorem answered_subset (settles : ∀ fuel i, Settles (solve fuel i) (solve (fuel + 1) i))
    (region : Finset ι) {fuel more : Nat} (le : fuel ≤ more) :
    answered region solve fuel ⊆ answered region solve more := by
  intro i member
  rw [mem_answered] at member ⊢
  rcases settles_of_le solve settles le i with stuck | same
  · exact absurd stuck member.2
  · exact ⟨member.1, same ▸ member.2⟩

/-- Where more fuel answers no further question, it changes no answer. -/
theorem eq_of_card_answered_eq (settles : ∀ fuel i, Settles (solve fuel i) (solve (fuel + 1) i))
    {region : Finset ι} {fuel more : Nat} (le : fuel ≤ more)
    (cards : (answered region solve fuel).card = (answered region solve more).card) :
    ∀ i ∈ region, solve fuel i = solve more i := by
  intro i inside
  have same : answered region solve fuel = answered region solve more :=
    Finset.eq_of_subset_of_card_le (answered_subset settles region le) (Nat.le_of_eq cards.symm)
  rcases settles_of_le solve settles le i with stuck | same'
  · have unanswered : i ∉ answered region solve more := by
      rw [← same, mem_answered]
      exact fun answer => answer.2 stuck
    rw [stuck]
    by_contra further
    exact unanswered (mem_answered.mpr ⟨inside, Ne.symm further⟩)
  · exact same'.symm

/--
Each further round of fuel answers another question of the region or changes nothing
from then on, so fuel beyond the size of the region makes no difference.
-/
theorem solve_eq_of_card_le (region : Finset ι) (solve : Nat → ι → Except Fault β)
    (settles : ∀ fuel i, Settles (solve fuel i) (solve (fuel + 1) i))
    (follows : ∀ fuel more, (∀ i ∈ region, solve fuel i = solve more i) →
      ∀ i ∈ region, solve (fuel + 1) i = solve (more + 1) i)
    {fuel more : Nat} (enough : region.card ≤ fuel) (enoughToo : region.card ≤ more) :
    ∀ i ∈ region, solve fuel i = solve more i := by
  have monotone : Monotone fun rounds => (answered region solve rounds).card :=
    fun _ _ le => Finset.card_le_card (answered_subset settles region le)
  have bounded : ∀ rounds, (answered region solve rounds).card ≤ region.card :=
    fun _ => Finset.card_le_card fun _ member => (mem_answered.mp member).1
  have stays : ∀ rounds,
      (answered region solve rounds).card = (answered region solve (rounds + 1)).card →
        (answered region solve (rounds + 1)).card =
          (answered region solve (rounds + 2)).card := by
    intro rounds cards
    have next := follows rounds (rounds + 1)
      (eq_of_card_answered_eq settles (Nat.le_succ rounds) cards)
    congr 1
    ext i
    rw [mem_answered, mem_answered]
    constructor
    · intro answer
      rcases answer with ⟨inside, settled⟩
      exact ⟨inside, next i inside ▸ settled⟩
    · intro answer
      rcases answer with ⟨inside, settled⟩
      exact ⟨inside, (next i inside).symm ▸ settled⟩
  have atCard : ∀ rounds, region.card ≤ rounds →
      ∀ i ∈ region, solve region.card i = solve rounds i := by
    intro rounds reached
    exact eq_of_card_answered_eq settles reached
      (Nat.stabilises_of_monotone monotone bounded stays reached).symm
  intro i inside
  rw [← atCard fuel enough i inside, ← atCard more enoughToo i inside]

end Bound

end ScopedValues
