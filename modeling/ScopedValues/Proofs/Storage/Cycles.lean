import Mathlib.Data.Fintype.EquivFin
import Mathlib.Logic.Relation
import Mathlib.Order.WellFounded
import ScopedValues.Error

/-!
Contract: walks from address to address, and when they come to an end.

Owns what it is for work with fuel to end, the faults that work can end with, and the
line between the walks that can be done and those that run into a cycle.

Main statements: where finitely many addresses lead to no cycle, what holds of an address
can be shown from what holds of those that come next; and a walk with fuel can be done
exactly if it leads to no cycle and nothing holds it up.
-/

set_option autoImplicit false

namespace ScopedValues

/-! ## Outcomes -/

/-- What holds of work put together from parts that have it holds of work on several values. -/
theorem mapM_closed {m : Type → Type} [Monad m] [LawfulMonad m] {α β : Type}
    (Has : ∀ {γ : Type}, m γ → Prop) (done : ∀ {γ : Type} (x : γ), Has (pure x : m γ))
    (next : ∀ {γ δ : Type} {first : m γ} {rest : γ → m δ}, Has first → (∀ x, Has (rest x)) →
      Has (first >>= rest))
    {work : α → m β} {items : List α} (each : ∀ x ∈ items, Has (work x)) :
    Has (items.mapM work) := by
  induction items with
  | nil => exact done []
  | cons x rest inductionHypothesis =>
      rw [List.forall_mem_cons] at each
      rw [List.mapM_cons]
      exact next each.1 fun _ => next (inductionHypothesis each.2) fun _ => done _

/-- Work ends when some amount of fuel is enough for it, whatever it then comes to. -/
def Terminates {α : Type} (work : Nat → Except Fault α) : Prop :=
  ∃ fuel, work fuel ≠ .error .endless

/-- Work that fails does so with one of the faults that are allowed. -/
def FailsOnly {α : Type} (allowed : Fault → Prop) (outcome : Except Fault α) : Prop :=
  ∀ fault, outcome = .error fault → allowed fault

namespace FailsOnly

variable {α β : Type} {allowed : Fault → Prop}

theorem ok (x : α) : FailsOnly allowed (.ok x) := by
  intro _ impossible
  cases impossible

theorem error {fault : Fault} (fits : allowed fault) :
    FailsOnly allowed (.error fault : Except Fault α) := by
  intro _ same
  cases same
  exact fits

theorem bind {first : Except Fault α} {next : α → Except Fault β} (starts : FailsOnly allowed first)
    (goes : ∀ x, first = .ok x → FailsOnly allowed (next x)) :
    FailsOnly allowed (first >>= next) := by
  cases first with
  | error fault => exact error (starts fault rfl)
  | ok x => exact goes x rfl

theorem forM {visit : β → Except Fault Unit} {items : List β}
    (each : ∀ x ∈ items, FailsOnly allowed (visit x)) : FailsOnly allowed (items.forM visit) := by
  induction items with
  | nil => exact ok ()
  | cons x rest inductionHypothesis =>
      rw [List.forall_mem_cons] at each
      exact each.1.bind fun _ _ => inductionHypothesis each.2

theorem mapM {work : α → Except Fault β} {items : List α}
    (each : ∀ x ∈ items, FailsOnly allowed (work x)) : FailsOnly allowed (items.mapM work) :=
  mapM_closed (FailsOnly allowed) ok (fun first rest => first.bind fun x _ => rest x) each

/-- Work that can only run out of fuel ends with an answer or not at all. -/
theorem terminates_iff {work : Nat → Except Fault α}
    (each : ∀ fuel, FailsOnly (· = .endless) (work fuel)) :
    Terminates work ↔ ∃ fuel x, work fuel = .ok x := by
  constructor
  · rintro ⟨fuel, ends⟩
    cases outcome : work fuel with
    | ok x => exact ⟨fuel, x, outcome⟩
    | error fault =>
        obtain rfl := each fuel fault outcome
        exact absurd outcome ends
  · rintro ⟨fuel, x, done⟩
    exact ⟨fuel, by rw [done]; intro impossible; cases impossible⟩

end FailsOnly

/-! ## Cycles -/

section Cycles

variable {step : Addr → Addr → Prop}

/-- Steps from `a` lead to nothing that leads back to itself. -/
def LeadsToNoCycle (step : Addr → Addr → Prop) (a : Addr) : Prop :=
  ∀ b, Relation.ReflTransGen step a b → ¬ Relation.TransGen step b b

theorem LeadsToNoCycle.next {a b : Addr} (straight : LeadsToNoCycle step a) (next : step a b) :
    LeadsToNoCycle step b :=
  fun c reached => straight c (.head next reached)

/-- Below a bound, there is no endless descent along steps that lead to no cycle. -/
theorem wellFounded_straight (step : Addr → Addr → Prop) (bound : Nat) :
    WellFounded fun later earlier : { a : Addr // a < bound ∧ LeadsToNoCycle step a } =>
      Relation.TransGen step earlier.1 later.1 := by
  let Straight := { a : Addr // a < bound ∧ LeadsToNoCycle step a }
  let Beyond : Straight → Straight → Prop :=
    fun later earlier => Relation.TransGen step earlier.1 later.1
  have : Finite Straight :=
    Finite.of_injective (fun a => (⟨a.1, a.2.1⟩ : Fin bound)) fun first second same =>
      Subtype.ext (Fin.mk.inj same)
  have : IsTrans Straight Beyond := ⟨fun _ _ _ near far => Relation.TransGen.trans far near⟩
  have : Std.Irrefl Beyond := ⟨fun a itself => a.2.2 a.1 .refl itself⟩
  exact Finite.wellFounded_of_trans_of_irrefl Beyond

/-- Where steps stay below a bound and lead to no cycle, what holds of an address may be
shown from what holds of the next ones. -/
theorem LeadsToNoCycle.induction {bound : Nat}
    (within : ∀ a b, a < bound → step a b → b < bound) {motive : Addr → Prop}
    (each : ∀ a, a < bound → (∀ b, step a b → motive b) → motive a) {a : Addr} (present : a < bound)
    (straight : LeadsToNoCycle step a) : motive a := by
  refine (wellFounded_straight step bound).induction (C := fun a => motive a.1)
    ⟨a, present, straight⟩ ?_
  intro b inductionHypothesis
  refine each b.1 b.2.1 fun c next => ?_
  exact inductionHypothesis ⟨c, within b.1 c b.2.1 next, b.2.2.next next⟩ (.single next)

/-! ## Walks with fuel -/

/-- What it is for a walk to be done: it must not be held up where it is, and be done from
every next address with one unit of fuel less. -/
structure Walk (step : Addr → Addr → Prop) (passable : Addr → Prop)
    (done : Nat → Addr → Prop) : Prop where
  start : ∀ a, ¬ done 0 a
  go : ∀ fuel a, done (fuel + 1) a ↔ passable a ∧ ∀ b, step a b → done fuel b

namespace Walk

variable {passable : Addr → Prop} {done : Nat → Addr → Prop} {a b : Addr} {fuel more : Nat}

theorem succ (walk : Walk step passable done) (finished : done fuel a) : done (fuel + 1) a := by
  induction fuel generalizing a with
  | zero => exact absurd finished (walk.start a)
  | succ fuel inductionHypothesis =>
      obtain ⟨free, later⟩ := (walk.go fuel a).mp finished
      exact (walk.go (fuel + 1) a).mpr ⟨free, fun b next => inductionHypothesis (later b next)⟩

theorem mono (walk : Walk step passable done) (le : fuel ≤ more) (finished : done fuel a) :
    done more a := by
  induction le with
  | refl => exact finished
  | step _ inductionHypothesis => exact walk.succ inductionHypothesis

/-- A walk that is done is done sooner from every address that it leads to. -/
theorem done_of_transGen (walk : Walk step passable done) (led : Relation.TransGen step a b) :
    ∀ {fuel}, done fuel a → ∃ less, less < fuel ∧ done less b := by
  induction led using Relation.TransGen.head_induction_on with
  | single next =>
      intro fuel finished
      cases fuel with
      | zero => exact absurd finished (walk.start _)
      | succ fuel => exact ⟨fuel, Nat.lt_succ_self fuel, ((walk.go fuel _).mp finished).2 b next⟩
  | head next _ inductionHypothesis =>
      intro fuel finished
      cases fuel with
      | zero => exact absurd finished (walk.start _)
      | succ fuel =>
          obtain ⟨less, smaller, reached⟩ :=
            inductionHypothesis (((walk.go fuel _).mp finished).2 _ next)
          exact ⟨less, Nat.lt_succ_of_lt smaller, reached⟩

theorem done_of_reflTransGen (walk : Walk step passable done)
    (led : Relation.ReflTransGen step a b) (finished : done fuel a) : ∃ less, done less b := by
  rcases Relation.reflTransGen_iff_eq_or_transGen.mp led with rfl | led
  · exact ⟨fuel, finished⟩
  · obtain ⟨less, _, reached⟩ := walk.done_of_transGen led finished
    exact ⟨less, reached⟩

/-- A walk that is done has met no cycle: it would be done there ever sooner. -/
theorem leadsToNoCycle (walk : Walk step passable done) (finished : done fuel a) :
    LeadsToNoCycle step a := by
  intro b led cycle
  obtain ⟨enough, reached⟩ := walk.done_of_reflTransGen led finished
  induction enough using Nat.strong_induction_on with
  | _ enough inductionHypothesis =>
      obtain ⟨less, smaller, again⟩ := walk.done_of_transGen cycle reached
      exact inductionHypothesis less smaller again

/-- Fuel that is enough for each of the next addresses is enough for all of them. -/
theorem exists_enough (walk : Walk step passable done) (bound : Nat)
    (each : ∀ b, step a b → ∃ fuel, done fuel b) :
    ∃ fuel, ∀ b, b < bound → step a b → done fuel b := by
  -- The next addresses are not listed anywhere; below the bound there are finitely many.
  induction bound with
  | zero => exact ⟨0, fun b impossible => absurd impossible (Nat.not_lt_zero b)⟩
  | succ bound inductionHypothesis =>
      obtain ⟨fuel, enough⟩ := inductionHypothesis
      have last : ∃ further, step a bound → done further bound := by
        by_cases next : step a bound
        · exact (each bound next).imp fun _ finished _ => finished
        · exact ⟨0, fun impossible => absurd impossible next⟩
      obtain ⟨further, enoughToo⟩ := last
      refine ⟨max fuel further, fun b within next => ?_⟩
      rcases Nat.lt_succ_iff_lt_or_eq.mp within with below | rfl
      · exact walk.mono (Nat.le_max_left fuel further) (enough b below next)
      · exact walk.mono (Nat.le_max_right fuel further) (enoughToo next)

/-- A walk below a bound can be done exactly if it leads to no cycle and is never held up. -/
theorem exists_done_iff (walk : Walk step passable done) {bound : Nat}
    (within : ∀ a b, a < bound → step a b → b < bound) (present : a < bound) :
    (∃ fuel, done fuel a) ↔
      LeadsToNoCycle step a ∧ ∀ b, Relation.ReflTransGen step a b → passable b := by
  constructor
  · rintro ⟨fuel, finished⟩
    refine ⟨walk.leadsToNoCycle finished, fun b led => ?_⟩
    obtain ⟨enough, reached⟩ := walk.done_of_reflTransGen led finished
    cases enough with
    | zero => exact absurd reached (walk.start b)
    | succ enough => exact ((walk.go enough b).mp reached).1
  · rintro ⟨straight, free⟩
    revert free
    refine straight.induction within (motive := fun a =>
      (∀ b, Relation.ReflTransGen step a b → passable b) → ∃ fuel, done fuel a) ?_ present
    intro a inside inductionHypothesis free
    obtain ⟨fuel, enough⟩ := walk.exists_enough bound fun b next =>
      inductionHypothesis b next fun c led => free c (.head next led)
    exact ⟨fuel + 1, (walk.go fuel a).mpr
      ⟨free a .refl, fun b next => enough b (within a b inside next) next⟩⟩

end Walk

end Cycles

end ScopedValues
