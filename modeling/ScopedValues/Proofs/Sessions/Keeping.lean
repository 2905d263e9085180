import ScopedValues.Context

/-!
Contract: work that keeps an invariant, whether it fails or not.

Owns the disciplines that states can be under, what it is for work to keep one, and the
rules for putting such work together.

Does not own any particular discipline.
-/

set_option autoImplicit false

namespace ScopedValues

/-- An invariant of states and the order in which sound states develop. -/
structure Discipline (σ : Type) where
  sound : σ → Prop
  grows : σ → σ → Prop
  refl : ∀ state, grows state state
  trans : ∀ before middle after, grows before middle → grows middle after → grows before after

namespace Discipline

variable {σ ε α β : Type}

/-- From `before`, work leaves a sound state, and what it answers satisfies `result` there. -/
structure Keeps (discipline : Discipline σ) (before : σ) (work : ExceptT ε (StateM σ) α)
    (result : α → σ → Prop) : Prop where
  sound : discipline.sound (work before).2
  grows : discipline.grows before (work before).2
  result : ∀ x, (work before).1 = .ok x → result x (work before).2

theorem bind_of_ok {work : ExceptT ε (StateM σ) α} {next : α → ExceptT ε (StateM σ) β}
    {before after : σ} {x : α} (done : work before = (.ok x, after)) :
    (work >>= next) before = next x after := by
  show (match (work before).1 with
    | .ok x => next x
    | .error fault => pure (.error fault) : StateM σ (Except ε β)) (work before).2 = _
  rw [done]

theorem bind_of_error {work : ExceptT ε (StateM σ) α} {next : α → ExceptT ε (StateM σ) β}
    {before after : σ} {fault : ε} (failed : work before = (.error fault, after)) :
    (work >>= next) before = (.error fault, after) := by
  show (match (work before).1 with
    | .ok x => next x
    | .error fault => pure (.error fault) : StateM σ (Except ε β)) (work before).2 = _
  rw [failed]
  rfl

theorem bind_eq_ok {work : ExceptT ε (StateM σ) α} {next : α → ExceptT ε (StateM σ) β}
    {before after : σ} {y : β} (done : (work >>= next) before = (.ok y, after)) :
    ∃ x later, work before = (.ok x, later) ∧ next x later = (.ok y, after) := by
  rcases worked : work before with ⟨fault | x, later⟩
  · rw [bind_of_error worked] at done
    cases done
  · rw [bind_of_ok worked] at done
    exact ⟨x, later, rfl, done⟩

theorem bind_get (next : σ → ExceptT ε (StateM σ) β) (before : σ) :
    ((get : ExceptT ε (StateM σ) σ) >>= next) before = next before before := rfl

theorem eq_ok_of_mapError {φ : Type} {outcome : Except ε α} {reword : ε → φ} {x : α}
    (answered : outcome.mapError reword = .ok x) : outcome = .ok x := by
  cases outcome with
  | error fault => cases answered
  | ok y =>
      cases answered
      rfl

variable {discipline : Discipline σ} {before : σ} {result : β → σ → Prop}

namespace Keeps

theorem of_eq {work : ExceptT ε (StateM σ) α} {holds : α → σ → Prop} {outcome : Except ε α}
    {after : σ} (done : work before = (outcome, after)) (sound : discipline.sound after)
    (grows : discipline.grows before after) (fits : ∀ x, outcome = .ok x → holds x after) :
    discipline.Keeps before work holds := by
  refine ⟨?_, ?_, ?_⟩
  · rw [done]
    exact sound
  · rw [done]
    exact grows
  · rw [done]
    exact fits

theorem pure (sound : discipline.sound before) {x : β} (holds : result x before) :
    discipline.Keeps before (Pure.pure x : ExceptT ε (StateM σ) β) result := by
  refine .of_eq rfl sound (discipline.refl before) fun y same => ?_
  cases same
  exact holds

theorem throw (sound : discipline.sound before) (fault : ε) :
    discipline.Keeps before (throw fault : ExceptT ε (StateM σ) β) result := by
  refine .of_eq rfl sound (discipline.refl before) fun y impossible => ?_
  cases impossible

theorem bind {work : ExceptT ε (StateM σ) α} {next : α → ExceptT ε (StateM σ) β}
    {middle : α → σ → Prop} (first : discipline.Keeps before work middle)
    (rest : ∀ x later, discipline.sound later → discipline.grows before later →
      middle x later → discipline.Keeps later (next x) result) :
    discipline.Keeps before (work >>= next) result := by
  obtain ⟨sound, grows, holds⟩ := first
  cases done : work before with
  | mk outcome later =>
      rw [done] at sound grows holds
      cases outcome with
      | error fault =>
          refine .of_eq (bind_of_error done) sound grows fun _ impossible => ?_
          cases impossible
      | ok x =>
          obtain ⟨lastSound, further, last⟩ := rest x later sound grows (holds x rfl)
          refine .of_eq (bind_of_ok done) lastSound ?_ last
          exact discipline.trans before later _ grows further

theorem mono {work : ExceptT ε (StateM σ) β} {weaker : β → σ → Prop}
    (keeps : discipline.Keeps before work result)
    (implies : ∀ x after, result x after → weaker x after) :
    discipline.Keeps before work weaker :=
  ⟨keeps.sound, keeps.grows, fun x ok => implies x _ (keeps.result x ok)⟩

theorem mapM (work : α → ExceptT ε (StateM σ) β) (items : List α) {kept : β → σ → Prop}
    (sound : discipline.sound before)
    (each : ∀ x ∈ items, ∀ later, discipline.sound later → discipline.grows before later →
      discipline.Keeps later (work x) kept)
    (stays : ∀ y later after, discipline.grows later after → kept y later → kept y after) :
    discipline.Keeps before (items.mapM work) fun answers after => ∀ y ∈ answers, kept y after := by
  induction items generalizing before with
  | nil => exact .pure sound (by simp)
  | cons x rest inductionHypothesis =>
      rw [List.forall_mem_cons] at each
      rw [List.mapM_cons]
      apply (each.1 before sound (discipline.refl before)).bind
      intro y later laterSound grows first
      have others := inductionHypothesis laterSound fun x member last lastSound further =>
        each.2 x member last lastSound (discipline.trans _ _ _ grows further)
      apply others.bind
      intro answers last lastSound further held
      refine .pure lastSound fun answer member => ?_
      rcases List.mem_cons.mp member with rfl | old
      · exact stays answer later last further first
      · exact held answer old

theorem get (sound : discipline.sound before) :
    discipline.Keeps before (get : ExceptT ε (StateM σ) σ) fun x after =>
      x = before ∧ after = before := by
  refine .of_eq rfl sound (discipline.refl before) fun y same => ?_
  cases same
  exact ⟨rfl, rfl⟩

theorem modify {f : σ → σ} (sound : discipline.sound (f before))
    (grows : discipline.grows before (f before)) :
    discipline.Keeps before (modify f : ExceptT ε (StateM σ) PUnit) fun _ after =>
      after = f before :=
  .of_eq rfl sound grows fun _ _ => rfl

theorem set {after : σ} (sound : discipline.sound after) (grows : discipline.grows before after) :
    discipline.Keeps before (set after : ExceptT ε (StateM σ) PUnit) fun _ last =>
      last = after :=
  .of_eq rfl sound grows fun _ _ => rfl

end Keeps

end Discipline

end ScopedValues
