import ScopedValues.Proofs.Ownership.Spending
import ScopedValues.Session.Basic

/-!
Contract: what work in contexts makes of the slots in hand.

Owns the spending of each operation on contexts, and of changes in place, during which the
value of the place is in hand and its slots in storage stand on credit.

Main statement: a change in place spends what the work on its value does.
-/

set_option autoImplicit false

namespace ScopedValues

open Store

namespace Context

def holding : Holding Context where
  store := Context.store
  slots _ := []
  fixed _ := true

abbrev Spends {α : Type} (work : ContextM α) (given : List Addr) (taken : α → List Addr) : Prop :=
  holding.Spends work given taken

/-- Nothing is in hand before the work or after it. -/
abbrev Idles {α : Type} (work : ContextM α) : Prop :=
  Spends work [] fun _ => []

open Holding (Spends)

/-! ## Work on storage -/

section Storage

variable {α : Type} {given : List Addr}

theorem idles_ask (question : Store → Except Fault α) : Idles (ask question) :=
  .of_eq fun _ context affords =>
    ⟨_, context, ask_eq question context, .refl _, rfl, affords, fun _ _ => affords⟩

theorem spends_onStore {work : Store → Except Fault (α × Store)} {taken : α → List Addr}
    (trades : ∀ store : Store, store.Trades given (work store) taken) :
    Context.Spends (onStore work) given taken := by
  refine .of_eq fun credit context affords => ?_
  cases done : work context.store with
  | error fault =>
      have asked : ask work context = (.error fault, context) := by rw [ask_eq, done]
      exact ⟨_, context, Discipline.bind_of_error asked, .refl _, rfl, affords.drop,
        fun _ impossible => by cases impossible⟩
  | ok result =>
      obtain ⟨x, store⟩ := result
      obtain ⟨shelters, afforded⟩ := trades context.store x store done
      have enough := afforded credit affords
      refine ⟨_, _, onStore_eq_ok done, shelters, rfl, enough.drop, fun y same => ?_⟩
      cases same
      exact enough

theorem spends_change {work : Store → Except Fault Store}
    (trades : ∀ store after : Store, work store = .ok after →
      store.Trades given (.ok ((), after)) fun _ => []) :
    Context.Spends (change work) given fun _ => [] := by
  refine .of_eq fun credit context affords => ?_
  cases done : work context.store with
  | error fault =>
      have asked : ask work context = (.error fault, context) := by rw [ask_eq, done]
      exact ⟨_, context, Discipline.bind_of_error asked, .refl _, rfl, affords.drop,
        fun _ impossible => by cases impossible⟩
  | ok store =>
      obtain ⟨shelters, afforded⟩ := trades context.store store done () store rfl
      have enough := afforded credit affords
      exact ⟨_, _, change_eq_ok done, shelters, rfl, enough, fun _ _ => enough⟩

theorem idles_record (event : Event) : Idles (record event) :=
  .of_eq fun _ context affords =>
    ⟨_, _, record_eq event context, .refl _, rfl, affords, fun _ _ => affords⟩

/-- A change of a context outside its storage. -/
theorem idles_modify (f : Context → Context) (same : ∀ context, (f context).store = context.store) :
    Idles (modify f : ContextM PUnit) := by
  refine .of_eq fun credit context affords => ?_
  have kept : holding.Affords credit (f context) [] := by
    show (f context).store.Affords credit []
    rw [same]
    exact affords
  refine ⟨_, _, rfl, ?_, rfl, kept, fun _ _ => kept⟩
  show context.store.Shelters (f context).store
  rw [same]
  exact .refl _

end Storage

/-! ## Scopes and lists -/

theorem spends_newRoot : Context.Spends (allocating Store.newRoot) [] fun a => [a] :=
  spends_onStore trades_newRoot

theorem spends_newChild (parent : Addr) :
    Context.Spends (allocating (·.newChild parent)) [] fun a => [a] :=
  spends_onStore fun store => trades_newChild store parent

theorem idles_baseScope : Idles baseScope := by
  refine Spends.get.bind fun context => ?_
  cases context.base with
  | some a => exact .idle
  | none =>
      refine (idles_record _).bind fun _ => spends_newRoot.drop.bind fun a => ?_
      exact (idles_modify (fun context => { context with base := some a }) fun _ => rfl).bind
        fun _ => .idle

theorem idles_defaultGlobalScope : Idles defaultGlobalScope := by
  refine Spends.get.bind fun context => ?_
  cases context.defaultGlobal with
  | some a => exact .idle
  | none =>
      refine (idles_record _).bind fun _ => idles_baseScope.bind fun parent => ?_
      refine (spends_newChild parent).drop.bind fun a => ?_
      exact (idles_modify (fun context => { context with defaultGlobal := some a })
        fun _ => rfl).bind fun _ => .idle

theorem idles_recordOf {details : ContextM Event} (idles : Idles details) :
    Idles (recordOf details) := by
  refine Spends.get.bind fun context => ?_
  split
  · exact idles.bind idles_record
  · exact .idle

theorem spends_child (parent : Addr) : Context.Spends (child parent) [] fun a => [a] :=
  (idles_recordOf ((idles_ask _).bind fun _ => .idle)).bind fun _ => spends_newChild parent

theorem spends_newScope : Context.Spends newScope [] fun a => [a] :=
  idles_baseScope.bind spends_newChild

theorem spends_globalScope : Context.Spends globalScope [] fun a => [a] :=
  idles_defaultGlobalScope.bind spends_child

theorem spends_assign (a : Addr) (key : String) (value : Value) :
    Context.Spends (assign a key value) value.handed fun _ => [] := by
  have changes : Context.Spends (change (·.assign a key value)) value.handed fun _ => [] :=
    spends_change fun store _ => trades_assign store a key value
  refine ((idles_ask _).beside value.handed).bind fun owner => ?_
  cases owner with
  | some owner => exact changes
  | none => exact ((idles_record _).beside value.handed).bind fun _ => changes

theorem spends_listOfTuple (value : Value) :
    Context.Spends (listOfTuple value) [] fun a => [a] := by
  have converts : Context.Spends (onStore (·.listOfTuple value)) [] fun a => [a] :=
    spends_onStore fun store => trades_listOfTuple store value
  cases value with
  | tuple items => exact converts
  | scalar x => exact (idles_record _).bind fun _ => converts
  | list a => exact (idles_record _).bind fun _ => converts
  | map a => exact (idles_record _).bind fun _ => converts

/-! ## Rendering -/

theorem idles_shown (value : Value) : Idles (shown value) :=
  (idles_ask _).bind fun _ => .idle

theorem idles_shownAll (values : List Value) : Idles (shownAll values) :=
  (Spends.mapM fun value _ => idles_shown value).bind fun _ => .idle

theorem idles_truth? (value : Value) : Idles (truth? value) := by
  cases value with
  | list a => exact (idles_ask _).bind fun _ => .idle
  | scalar x => exact .idle
  | tuple items => exact .idle
  | map a => exact .idle

theorem idles_compare (x y : Value) : Idles (compare x y) :=
  (idles_ask _).bind fun _ => (idles_ask _).bind fun _ => .idle

theorem idles_first? (value : Value) : Idles (first? value) := by
  unfold first?
  cases Cursor.over? value with
  | none => exact .idle
  | some cursor =>
      have steps := spends_onStore fun store => Cursor.trades_next store cursor
      refine steps.drop.bind fun answer => ?_
      obtain ⟨found, after⟩ := answer
      cases found with
      | none => exact .idle
      | some element => exact (idles_shown element).bind fun _ => .idle

/-- The part of a profile that looks at copies of the value. -/
theorem idles_compared (value : Value) {α : Type}
    (finish : Option Shown → Bool → Bool → Bool → α) :
    Idles (do
      let first ← first? value
      let equalsItself ← ask (·.equal value value)
      let copy ← onStore (·.copy value)
      let equalsCopy ← ask (·.equal copy value)
      let deepCopy ← onStore (·.deepCopy value)
      let equalsDeepCopy ← ask (·.equal deepCopy value)
      return finish first equalsItself equalsCopy equalsDeepCopy) := by
  refine (idles_first? value).bind fun first => (idles_ask _).bind fun equalsItself => ?_
  refine (spends_onStore fun store => trades_copy store value).drop.bind fun copy => ?_
  refine (idles_ask _).bind fun equalsCopy => ?_
  refine (spends_onStore fun store => trades_deepCopy store value).drop.bind fun deepCopy => ?_
  exact (idles_ask _).bind fun equalsDeepCopy => .idle

theorem idles_profile (value : Value) : Idles (profile value) := by
  refine (idles_ask _).bind fun text => (idles_truth? value).bind fun truth => ?_
  cases value with
  | scalar x =>
      simp only [pure_bind]
      exact idles_compared _ _
  | tuple items =>
      simp only [pure_bind]
      exact idles_compared _ _
  | list a =>
      simp only [pure_bind]
      exact (idles_ask _).bind fun items => idles_compared _ _
  | map a =>
      simp only [pure_bind]
      exact (idles_ask _).bind fun table => idles_compared _ _

/-! ## Changes in place -/

section InPlace

variable {ρ : Type} {given : List Addr} {taken : ρ → List Addr}

/-- Work on a value that is in hand gives it back, changed, with what it answers. -/
def SpendsInPlace (work : InPlace ρ) (given : List Addr) (taken : ρ → List Addr) : Prop :=
  ∀ credit value context, context.store.Affords credit (value.handed ++ given) →
    context.store.Shelters (work value context).2.2.store ∧
      (work value context).2.2.store.Affords credit
        ((work value context).2.1.handed ++ taken (work value context).1)

/-- The value of a gap is worked on while its slots in storage stand on credit. -/
theorem spends_lending {a : Addr} {read : Store → Value} {putBack : Store → Value → Store}
    (gap : Gap a read putBack) {work : InPlace ρ} (spends : SpendsInPlace work given taken)
    {credit : Credit} {context : Context} (free : a ∉ context.store.lent)
    (affords : context.store.Affords credit given) :
    context.store.Shelters (lending a (read context.store) putBack work context).2.store ∧
      (lending a (read context.store) putBack work context).2.store.Affords credit
        (taken (lending a (read context.store) putBack work context).1) := by
  obtain ⟨shelters, afforded⟩ := spends _ (read context.store)
    { context with store := context.store.lend a } (affords_more.mpr affords)
  unfold lending
  generalize work (read context.store) { context with store := context.store.lend a } = outcome
    at shelters afforded ⊢
  obtain ⟨answer, changed, after⟩ := outcome
  exact gap.close free shelters afforded

theorem spends_withItem {work : InPlace ρ} (spends : SpendsInPlace work given taken) (a : Addr)
    (index : Index) : Context.Spends (withItem a index work) given taken := by
  refine .of_eq fun credit context affords => ?_
  cases found : context.store.item a index with
  | error fault =>
      exact ⟨_, _, withItem_of_fault found work, .refl _, rfl, affords.drop,
        fun _ impossible => by cases impossible⟩
  | ok place =>
      obtain ⟨position, value⟩ := place
      obtain ⟨shelters, enough⟩ := spends_lending (gap_position a position) spends
        (item_free context.store a found) affords
      rw [← item_eq_ok found] at shelters enough
      refine ⟨_, _, withItem_of_found found work, shelters, rfl, enough.drop, fun answer same => ?_⟩
      cases same
      exact enough

theorem spends_withEntry {work : InPlace ρ} (spends : SpendsInPlace work given taken) (a : Addr)
    (key : String) : Context.Spends (withEntry a key work) given taken := by
  refine .of_eq fun credit context affords => ?_
  cases found : context.store.entry a key with
  | error fault =>
      exact ⟨_, _, withEntry_of_fault found work, .refl _, rfl, affords.drop,
        fun _ impossible => by cases impossible⟩
  | ok place =>
      obtain ⟨owner, value, store⟩ := place
      obtain ⟨opened, afforded, free, rfl⟩ := entry_opens context.store a found
      obtain ⟨shelters, enough⟩ := @spends_lending _ _ _ _ _ _ (gap_entry owner key) _ spends
        credit { context with store } free (afforded credit given affords)
      refine ⟨_, _, withEntry_of_found found work, opened.trans shelters, rfl, enough.drop,
        fun answer same => ?_⟩
      cases same
      exact enough

end InPlace

end Context

end ScopedValues
