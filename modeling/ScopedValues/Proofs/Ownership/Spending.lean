import ScopedValues.Proofs.Ownership.Trades
import ScopedValues.Proofs.Sessions.Contexts

/-!
Contract: work that makes no tuple slot for an address that has one.

Owns what a state has in tuples outside its storage, spending, in which work starts with
some addresses in hand and answers with others, and the rules for putting such work
together.

Main statements: what is set aside before work is there after it, and work that fails
only drops what it had in hand.
-/

set_option autoImplicit false

namespace ScopedValues

open Store

/-- Where a state keeps addresses, and what no work on it changes. -/
structure Holding (σ : Type) where
  store : σ → Store
  /-- The slots in the tuples that stand outside storage. -/
  slots : σ → List Addr
  fixed : σ → Bool

namespace Holding

variable {σ ε α β : Type} (holding : Holding σ)

/-- The state affords `hand` besides the slots that it has itself. -/
def Affords (credit : Credit) (state : σ) (hand : List Addr) : Prop :=
  (holding.store state).Affords credit (holding.slots state ++ hand)

def discipline (credit : Credit) : Discipline σ where
  sound state := holding.Affords credit state []
  grows before after :=
    (holding.store before).Shelters (holding.store after) ∧
      holding.fixed after = holding.fixed before
  refl _ := ⟨.refl _, rfl⟩
  trans _ _ _ first second := ⟨first.1.trans second.1, second.2.trans first.2⟩

/-- Whenever a state affords `given`, the work leaves one that affords what it answers. -/
def Spends (work : ExceptT ε (StateM σ) α) (given : List Addr) (taken : α → List Addr) : Prop :=
  ∀ credit before, holding.Affords credit before given →
    (holding.discipline credit).Keeps before work fun x after =>
      holding.Affords credit after (taken x)

variable {holding} {credit : Credit} {state : σ} {given hand reserve : List Addr}
  {taken : β → List Addr}

theorem Affords.mono (affords : holding.Affords credit state given)
    (fewer : ∀ a, hand.count a ≤ given.count a) : holding.Affords credit state hand :=
  Store.Affords.mono affords fun a => by
    rw [List.count_append, List.count_append]
    exact Nat.add_le_add_left (fewer a) _

theorem Affords.drop (affords : holding.Affords credit state given) :
    holding.Affords credit state [] :=
  affords.mono fun _ => by simp

theorem affords_less :
    holding.Affords (credit.less reserve) state hand ↔
      holding.Affords credit state (reserve ++ hand) := by
  have order : holding.Affords credit state (reserve ++ hand) ↔
      (holding.store state).Affords credit (reserve ++ (holding.slots state ++ hand)) := by
    constructor
    all_goals
      intro affords
      refine Store.Affords.mono affords fun a => ?_
      simp only [List.count_append]
      omega
  rw [order]
  exact Store.affords_less

namespace Spends

theorem of_eq {work : ExceptT ε (StateM σ) β}
    (each : ∀ credit before, holding.Affords credit before given →
      ∃ outcome after, work before = (outcome, after) ∧
        (holding.store before).Shelters (holding.store after) ∧
        holding.fixed after = holding.fixed before ∧ holding.Affords credit after [] ∧
        ∀ x, outcome = .ok x → holding.Affords credit after (taken x)) :
    holding.Spends work given taken := by
  intro credit before affords
  obtain ⟨outcome, after, done, shelters, fixed, sound, answered⟩ := each credit before affords
  exact .of_eq done sound ⟨shelters, fixed⟩ answered

theorem pure {x : β} (fewer : ∀ a, (taken x).count a ≤ given.count a) :
    holding.Spends (Pure.pure x : ExceptT ε (StateM σ) β) given taken :=
  fun _ _ affords => .pure affords.drop (affords.mono fewer)

theorem done {x : β} (exactly : taken x = given) :
    holding.Spends (Pure.pure x : ExceptT ε (StateM σ) β) given taken :=
  .pure fun _ => Nat.le_of_eq (congrArg _ exactly)

theorem idle {x : β} : holding.Spends (Pure.pure x : ExceptT ε (StateM σ) β) [] fun _ => [] :=
  .done rfl

theorem throw (fault : ε) :
    holding.Spends (throw fault : ExceptT ε (StateM σ) β) given taken :=
  fun _ _ affords => .throw affords.drop fault

theorem bind {work : ExceptT ε (StateM σ) α} {next : α → ExceptT ε (StateM σ) β}
    {between : α → List Addr} (first : holding.Spends work given between)
    (rest : ∀ x, holding.Spends (next x) (between x) taken) :
    holding.Spends (work >>= next) given taken :=
  fun credit before affords =>
    (first credit before affords).bind fun x later _ _ enough => rest x credit later enough

theorem mono {work : ExceptT ε (StateM σ) β} {fewer : β → List Addr}
    (spends : holding.Spends work given taken)
    (less : ∀ x a, (fewer x).count a ≤ (taken x).count a) : holding.Spends work given fewer :=
  fun credit before affords =>
    (spends credit before affords).mono fun x _ enough => enough.mono (less x)

theorem drop {work : ExceptT ε (StateM σ) β} (spends : holding.Spends work given taken) :
    holding.Spends work given fun _ => [] :=
  spends.mono fun _ _ => by simp

/-- What is set aside is there afterwards. -/
theorem frame {work : ExceptT ε (StateM σ) β} (spends : holding.Spends work given taken)
    (reserve : List Addr) :
    holding.Spends work (reserve ++ given) fun x => reserve ++ taken x := by
  intro credit before affords
  obtain ⟨sound, grows, answered⟩ := spends _ before (affords_less.mpr affords)
  exact ⟨(affords_less.mp sound).drop, grows, fun x ok => affords_less.mp (answered x ok)⟩

/-- Having more in hand does no harm. -/
theorem enough {work : ExceptT ε (StateM σ) β} {more : List Addr}
    (spends : holding.Spends work given taken)
    (covers : ∀ a, given.count a ≤ more.count a) : holding.Spends work more taken :=
  fun credit before affords => spends credit before (affords.mono covers)

/-- Work that needs nothing leaves what is in hand. -/
theorem aside {work : ExceptT ε (StateM σ) β} (spends : holding.Spends work [] taken)
    (reserve : List Addr) : holding.Spends work reserve fun x => reserve ++ taken x := by
  have framed := spends.frame reserve
  rwa [List.append_nil] at framed

/-- Work that needs nothing and gives nothing leaves what is in hand. -/
theorem beside {work : ExceptT ε (StateM σ) β} (spends : holding.Spends work [] fun _ => [])
    (reserve : List Addr) : holding.Spends work reserve fun _ => reserve := by
  have framed := spends.aside reserve
  rwa [List.append_nil] at framed

theorem get : holding.Spends (get : ExceptT ε (StateM σ) σ) hand fun _ => hand :=
  fun _ _ affords => .of_eq rfl affords.drop ⟨.refl _, rfl⟩ fun _ _ => affords

theorem mapM {work : α → ExceptT ε (StateM σ) β} {items : List α}
    (each : ∀ x ∈ items, holding.Spends (work x) [] fun _ => []) :
    holding.Spends (items.mapM work) [] fun _ => [] := by
  induction items with
  | nil => exact .idle
  | cons x rest inductionHypothesis =>
      rw [List.forall_mem_cons] at each
      rw [List.mapM_cons]
      exact each.1.bind fun y => (inductionHypothesis each.2).bind fun _ => .idle

end Spends

end Holding

end ScopedValues
