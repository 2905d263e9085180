import ScopedValues.Proofs.Sessions.Keeping
import ScopedValues.Proofs.Storage.Containers

/-!
Contract: sound contexts and the work that keeps them.

Owns the invariant of a context, its development, the law of each operation on
contexts, and the law of changes in place, which leave a sound context if the work on
the place does.

Does not own variables.
-/

set_option autoImplicit false

namespace ScopedValues

namespace Context

open Store

/-- The invariant of a context: sound storage, with the default scopes where they belong. -/
structure Sound (context : Context) : Prop where
  store : context.store.Sound
  base : ∀ a, context.base = some a →
    context.store.IsScope a ∧ (context.store.scope a).parent = none
  defaultGlobal : ∀ a, context.defaultGlobal = some a → context.store.IsScope a ∧
    ∃ base, context.base = some base ∧ (context.store.scope a).parent = some base

/-- The storage of a context has grown, and its default scopes, once made, are the same. -/
structure Grows (before after : Context) : Prop where
  store : before.store.Grows after.store
  base : ∀ a, before.base = some a → after.base = some a
  defaultGlobal : ∀ a, before.defaultGlobal = some a → after.defaultGlobal = some a

theorem Grows.refl (context : Context) : Grows context context :=
  ⟨.refl context.store, fun _ same => same, fun _ same => same⟩

theorem Grows.trans {before middle after : Context} (first : Grows before middle)
    (second : Grows middle after) : Grows before after where
  store := first.store.trans second.store
  base a same := second.base a (first.base a same)
  defaultGlobal a same := second.defaultGlobal a (first.defaultGlobal a same)

def discipline : Discipline Context where
  sound := Sound
  grows := Grows
  refl := Grows.refl
  trans _ _ _ := Grows.trans

theorem Sound.retain {context : Context} (sound : context.Sound) {store : Store}
    (storeSound : store.Sound) (retains : context.store.Retains store) :
    Sound { context with store } where
  store := storeSound
  base a same := by
    obtain ⟨isScope, root⟩ := sound.base a same
    exact ⟨retains.scopes a isScope, (retains.parents a isScope).trans root⟩
  defaultGlobal a same := by
    obtain ⟨isScope, base, made, inside⟩ := sound.defaultGlobal a same
    exact ⟨retains.scopes a isScope, base, made, (retains.parents a isScope).trans inside⟩

theorem Sound.develop {context : Context} (sound : context.Sound) {store : Store}
    (develops : context.store.Develops store) : Sound { context with store } :=
  sound.retain develops.sound develops.grows.toRetains

/-! ## Work on storage -/

section Storage

variable {α : Type} {context : Context}

theorem ask_eq (question : Store → Except Fault α) (context : Context) :
    ask question context = (question context.store, context) := by
  show ask.liftExcept (question context.store) context = _
  cases question context.store <;> rfl

theorem onStore_eq_ok {work : Store → Except Fault (α × Store)} {x : α} {store : Store}
    (done : work context.store = .ok (x, store)) :
    onStore work context = (.ok x, { context with store }) := by
  have asked : ask work context = (.ok (x, store), context) := by rw [ask_eq, done]
  exact Discipline.bind_of_ok asked

theorem change_eq_ok {work : Store → Except Fault Store} {store : Store}
    (done : work context.store = .ok store) :
    change work context = (.ok (), { context with store }) := by
  have asked : ask work context = (.ok store, context) := by rw [ask_eq, done]
  exact Discipline.bind_of_ok asked

/-- The log with an event added, if events are recorded. -/
def logged (context : Context) (event : Event) : List Event :=
  if context.tracing then context.log ++ [event] else context.log

theorem record_eq (event : Event) (context : Context) :
    record event context = (.ok (), { context with log := context.logged event }) := by
  obtain ⟨store, base, defaultGlobal, tracing, log⟩ := context
  cases tracing <;> rfl

theorem keeps_ask (sound : context.Sound) (question : Store → Except Fault α) :
    discipline.Keeps context (ask question) fun x after =>
      question context.store = .ok x ∧ after = context :=
  .of_eq (ask_eq question context) sound (.refl context) fun _ answered => ⟨answered, rfl⟩

theorem keeps_exchange (sound : context.Sound) {store : Store}
    (develops : context.store.Develops store) :
    discipline.Keeps context
      (modify fun context => { context with store } : ContextM PUnit)
      fun _ after => after = { context with store } :=
  .modify (sound.develop develops) ⟨develops.grows, fun _ same => same, fun _ same => same⟩

/-- Work on storage changes nothing else. -/
theorem keeps_onStore_only (sound : context.Sound) (work : Store → Except Fault (α × Store))
    {result : α → Store → Prop} (keeps : context.store.Keeps (work context.store) result) :
    discipline.Keeps context (onStore work) fun x after =>
      result x after.store ∧ after = { context with store := after.store } := by
  apply (keeps_ask sound work).bind
  intro answer later _ _ kept
  rcases answer with ⟨x, store⟩
  rcases kept with ⟨done, rfl⟩
  obtain ⟨develops, holds⟩ := keeps x store done
  apply (keeps_exchange sound develops).bind
  intro _ _ sound _ same
  subst same
  exact .pure sound ⟨holds, rfl⟩

theorem keeps_onStore (sound : context.Sound) (work : Store → Except Fault (α × Store))
    {result : α → Store → Prop} (keeps : context.store.Keeps (work context.store) result) :
    discipline.Keeps context (onStore work) fun x after => result x after.store :=
  (keeps_onStore_only sound work keeps).mono fun _ _ both => both.1

theorem keeps_change (sound : context.Sound) {work : Store → Except Fault Store}
    (develops : ∀ after, work context.store = .ok after → context.store.Develops after) :
    discipline.Keeps context (change work) fun _ _ => True := by
  apply (keeps_ask sound work).bind
  intro store later _ _ kept
  rcases kept with ⟨done, rfl⟩
  exact (keeps_exchange sound (develops store done)).mono fun _ _ _ => trivial

theorem keeps_allocating (sound : context.Sound) {work : Store → Addr × Store}
    {result : Addr → Store → Prop} (keeps : context.store.Keeps (.ok (work context.store)) result) :
    discipline.Keeps context (allocating work) fun a after => result a after.store :=
  keeps_onStore sound _ keeps

theorem keeps_record (sound : context.Sound) (event : Event) :
    discipline.Keeps context (record event) fun _ after =>
      after.store = context.store ∧ after.base = context.base ∧
        after.defaultGlobal = context.defaultGlobal := by
  refine .of_eq (record_eq event context) ⟨sound.store, sound.base, sound.defaultGlobal⟩ ?_
    fun _ _ => ⟨rfl, rfl, rfl⟩
  exact ⟨.refl context.store, fun _ same => same, fun _ same => same⟩

end Storage

/-! ## Scopes -/

section Scopes

variable {context : Context}

/-- Before there is a base scope there is no default one. -/
theorem Sound.defaultGlobal_eq_none (sound : context.Sound) (unmade : context.base = none) :
    context.defaultGlobal = none := by
  cases made : context.defaultGlobal with
  | none => rfl
  | some a =>
      obtain ⟨_, base, present, _⟩ := sound.defaultGlobal a made
      rw [unmade] at present
      cases present

theorem keeps_baseScope (sound : context.Sound) :
    discipline.Keeps context baseScope fun a after =>
      after.base = some a ∧ after.defaultGlobal = context.defaultGlobal := by
  apply (Discipline.Keeps.get sound).bind
  intro _ context _ _ kept
  rcases kept with ⟨rfl, rfl⟩
  cases made : context.base with
  | some a => exact .pure sound ⟨made, rfl⟩
  | none =>
      apply (keeps_record sound .baseCreated).bind
      intro _ logged logSound _ kept
      rcases kept with ⟨_, sameBase, sameGlobal⟩
      apply (keeps_onStore_only logSound _ (keeps_newRoot logSound.store)).bind
      intro a later laterSound _ kept
      rcases kept with ⟨⟨isScope, root⟩, only⟩
      have noBase : later.base = none := by rw [only, sameBase, made]
      have noGlobal := laterSound.defaultGlobal_eq_none noBase
      have next : discipline.Keeps later
          (modify fun context => { context with base := some a } : ContextM PUnit)
          fun _ after => after = { later with base := some a } := by
        refine .modify ⟨laterSound.store, ?_, ?_⟩ ⟨.refl _, ?_, fun _ same => same⟩
        · intro _ same
          cases same
          exact ⟨isScope, root⟩
        · intro b same
          rw [noGlobal] at same
          cases same
        · intro b same
          rw [noBase] at same
          cases same
      apply next.bind
      intro _ _ lastSound _ same
      subst same
      exact .pure lastSound ⟨rfl, noGlobal.trans (sound.defaultGlobal_eq_none made).symm⟩

theorem keeps_defaultGlobalScope (sound : context.Sound) :
    discipline.Keeps context defaultGlobalScope fun a after => after.defaultGlobal = some a := by
  apply (Discipline.Keeps.get sound).bind
  intro _ context _ _ kept
  rcases kept with ⟨rfl, rfl⟩
  cases made : context.defaultGlobal with
  | some a => exact .pure sound made
  | none =>
      apply (keeps_record sound .defaultGlobalCreated).bind
      intro _ logged logSound _ kept
      rcases kept with ⟨_, _, sameGlobal⟩
      apply (keeps_baseScope logSound).bind
      intro base based basedSound _ kept
      rcases kept with ⟨isBase, sameDefault⟩
      have noGlobal : based.defaultGlobal = none := by rw [sameDefault, sameGlobal, made]
      apply (keeps_onStore_only basedSound _
        (keeps_newChild basedSound.store (basedSound.base base isBase).1)).bind
      intro a later laterSound _ kept
      rcases kept with ⟨⟨isScope, inside⟩, only⟩
      have stillBase : later.base = some base := by rw [only, isBase]
      have stillNone : later.defaultGlobal = none := by rw [only, noGlobal]
      have next : discipline.Keeps later
          (modify fun context => { context with defaultGlobal := some a } : ContextM PUnit)
          fun _ after => after = { later with defaultGlobal := some a } := by
        refine .modify ⟨laterSound.store, laterSound.base, ?_⟩ ⟨.refl _, fun _ same => same, ?_⟩
        · intro _ same
          cases same
          exact ⟨isScope, base, stillBase, inside⟩
        · intro b same
          rw [stillNone] at same
          cases same
      apply next.bind
      intro _ _ lastSound _ same
      subst same
      exact .pure lastSound rfl

theorem keeps_recordOf (sound : context.Sound) {details : ContextM Event}
    (keeps : discipline.Keeps context details fun _ after => after = context) :
    discipline.Keeps context (recordOf details) fun _ after => after.store = context.store := by
  apply (Discipline.Keeps.get sound).bind
  intro _ context _ _ kept
  rcases kept with ⟨rfl, rfl⟩
  split
  · apply keeps.bind
    intro event context sound _ same
    subst same
    exact (keeps_record sound event).mono fun _ _ kept => kept.1
  · exact .pure sound rfl

theorem keeps_childEvent (sound : context.Sound) (parent : Addr) :
    discipline.Keeps context (childEvent parent) fun _ after => after = context := by
  apply (keeps_ask sound _).bind
  intro depth context sound _ kept
  rcases kept with ⟨_, rfl⟩
  exact .pure sound rfl

theorem keeps_child (sound : context.Sound) {parent : Addr}
    (isScope : context.store.IsScope parent) :
    discipline.Keeps context (child parent) fun a after => after.store.IsScope a := by
  apply (keeps_recordOf sound (keeps_childEvent sound parent)).bind
  intro _ logged logSound _ sameStore
  rw [← sameStore] at isScope
  exact (keeps_allocating logSound (keeps_newChild logSound.store isScope)).mono
    fun _ _ made => made.1

theorem keeps_newScope (sound : context.Sound) :
    discipline.Keeps context newScope fun a after => after.store.IsScope a := by
  apply (keeps_baseScope sound).bind
  intro base later laterSound _ kept
  rcases kept with ⟨isBase, _⟩
  exact (keeps_allocating laterSound
    (keeps_newChild laterSound.store (laterSound.base base isBase).1)).mono fun _ _ made => made.1

theorem keeps_globalScope (sound : context.Sound) :
    discipline.Keeps context globalScope fun a after => after.store.IsScope a := by
  apply (keeps_defaultGlobalScope sound).bind
  intro parent later laterSound _ isDefault
  exact keeps_child laterSound (laterSound.defaultGlobal parent isDefault).1

theorem keeps_assign (sound : context.Sound) {a : Addr} (isScope : context.store.IsScope a)
    (key : String) {value : Value} (held : value.Held context.store) :
    discipline.Keeps context (assign a key value) fun _ _ => True := by
  apply (keeps_ask sound _).bind
  intro owner context sound _ kept
  rcases kept with ⟨_, rfl⟩
  have changes : ∀ later : Context, later.Sound → later.store = context.store →
      discipline.Keeps later (change (·.assign a key value)) fun _ _ => True := by
    intro later laterSound same
    rw [← same] at isScope held
    exact keeps_change laterSound fun _ done =>
      develops_assign laterSound.store isScope held done
  cases owner with
  | some owner => exact changes context sound rfl
  | none =>
      apply (keeps_record sound _).bind
      intro _ logged logSound _ kept
      rcases kept with ⟨same, _, _⟩
      exact changes logged logSound same

theorem keeps_listOfTuple (sound : context.Sound) {value : Value}
    (held : value.Held context.store) :
    discipline.Keeps context (listOfTuple value) fun a after => after.store.IsList a := by
  have converts : ∀ later : Context, later.Sound → later.store = context.store →
      discipline.Keeps later (onStore (·.listOfTuple value)) fun a after =>
        after.store.IsList a := by
    intro later laterSound same
    rw [← same] at held
    exact keeps_onStore laterSound (·.listOfTuple value)
      (Store.keeps_listOfTuple laterSound.store held)
  have refuses : discipline.Keeps context
      (do
        record (.conversionRejected value.tag)
        onStore (·.listOfTuple value))
      fun a after => after.store.IsList a := by
    apply (keeps_record sound _).bind
    intro _ logged logSound _ kept
    rcases kept with ⟨same, _, _⟩
    exact converts logged logSound same
  cases value with
  | tuple items => exact converts context sound rfl
  | scalar x => exact refuses
  | list a => exact refuses
  | map a => exact refuses

end Scopes

/-! ## Changes in place -/

section InPlace

variable {ρ : Type} {context : Context}

/-- What work on a place leaves: a sound context, a held value and an answer that fits. -/
structure Leaves (before : Context) (outcome : ρ × Value × Context)
    (result : ρ → Store → Prop) : Prop where
  sound : outcome.2.2.Sound
  grows : before.Grows outcome.2.2
  held : outcome.2.1.Held outcome.2.2.store
  result : result outcome.1 outcome.2.2.store

/-- Development does not undo `result`. -/
def Stable (result : ρ → Store → Prop) : Prop :=
  ∀ x before after, before.Retains after → result x before → result x after

theorem sound_lend (sound : context.Sound) (a : Addr) :
    Sound { context with store := context.store.lend a } :=
  sound.retain (sound.store.of_payloads rfl) (.of_payloads rfl)

theorem keeps_lending (context : Context) {a : Addr} {value : Value}
    {putBack : Store → Value → Store} {work : InPlace ρ} {result : ρ → Store → Prop}
    (stable : Stable result)
    (leaves : Leaves { context with store := context.store.lend a }
      (work value { context with store := context.store.lend a }) result)
    (puts : ∀ store changed, store.Sound → context.store.Retains store → changed.Held store →
      store.Develops (putBack store changed)) :
    (lending a value putBack work context).2.Sound ∧
      context.Grows (lending a value putBack work context).2 ∧
        result (lending a value putBack work context).1
          (lending a value putBack work context).2.store := by
  unfold lending
  generalize work value { context with store := context.store.lend a } = outcome at leaves ⊢
  obtain ⟨answer, changed, after⟩ := outcome
  obtain ⟨afterSound, grows, held, holds⟩ := leaves
  have back : after.store.Retains after.store.regain := .of_payloads rfl
  have lent : context.store.Retains (context.store.lend a) := .of_payloads rfl
  have retains := (lent.trans grows.store.toRetains).trans back
  have develops := puts after.store.regain changed (afterSound.store.of_payloads rfl) retains
    (held.retain back)
  have whole := retains.trans develops.grows.toRetains
  refine ⟨?_, ⟨⟨whole, ?_⟩, grows.base, grows.defaultGlobal⟩, ?_⟩
  · exact afterSound.retain develops.sound (back.trans develops.grows.toRetains)
  · have last : after.store.lent = a :: context.store.lent := grows.store.lent
    show (putBack after.store.regain changed).lent = context.store.lent
    rw [develops.grows.lent, regain, last]
    rfl
  · exact stable answer _ _ (back.trans develops.grows.toRetains) holds

theorem withItem_of_fault {a : Addr} {index : Index} {fault : Fault}
    (refused : context.store.item a index = .error fault) (work : InPlace ρ) :
    withItem a index work context = (.error fault, context) := by
  unfold withItem
  rw [refused]

theorem withItem_of_found {a : Addr} {index : Index} {position : Nat} {value : Value}
    (found : context.store.item a index = .ok (position, value)) (work : InPlace ρ) :
    withItem a index work context =
      (.ok (lending a value (fun store changed => store.setPosition a position changed)
        work context).1,
      (lending a value (fun store changed => store.setPosition a position changed)
        work context).2) := by
  unfold withItem
  rw [found]

theorem withEntry_of_fault {a : Addr} {key : String} {fault : Fault}
    (refused : context.store.entry a key = .error fault) (work : InPlace ρ) :
    withEntry a key work context = (.error fault, context) := by
  unfold withEntry
  rw [refused]

theorem withEntry_of_found {a : Addr} {key : String} {owner : Addr} {value : Value}
    {store : Store} (found : context.store.entry a key = .ok (owner, value, store))
    (work : InPlace ρ) :
    withEntry a key work context =
      (.ok (lending owner value (fun store changed => store.setEntry owner key changed)
        work { context with store }).1,
      (lending owner value (fun store changed => store.setEntry owner key changed)
        work { context with store }).2) := by
  unfold withEntry
  rw [found]

theorem keeps_withItem (sound : context.Sound) {a : Addr} (isList : context.store.IsList a)
    (index : Index) {work : InPlace ρ} {result : ρ → Store → Prop} (stable : Stable result)
    (leaves : ∀ value, value.Held context.store →
      Leaves { context with store := context.store.lend a }
        (work value { context with store := context.store.lend a }) result) :
    discipline.Keeps context (withItem a index work) fun answer after =>
      result answer after.store := by
  cases found : context.store.item a index with
  | error fault =>
      exact .of_eq (withItem_of_fault found work) sound (.refl context)
        fun _ impossible => by cases impossible
  | ok place =>
      obtain ⟨position, value⟩ := place
      obtain ⟨lastSound, grows, holds⟩ := keeps_lending context stable
        (leaves value (item_held sound.store found))
        (fun store changed storeSound retains held =>
          develops_setPosition storeSound (retains.lists a isList) held position)
      refine .of_eq (withItem_of_found found work) lastSound grows fun answer same => ?_
      cases same
      exact holds

theorem keeps_withEntry (sound : context.Sound) {a : Addr} (isScope : context.store.IsScope a)
    (key : String) {work : InPlace ρ} {result : ρ → Store → Prop} (stable : Stable result)
    (leaves : ∀ owner value store, context.store.Grows store → store.Sound → value.Held store →
      Leaves { context with store := store.lend owner }
        (work value { context with store := store.lend owner }) result) :
    discipline.Keeps context (withEntry a key work) fun answer after =>
      result answer after.store := by
  cases found : context.store.entry a key with
  | error fault =>
      exact .of_eq (withEntry_of_fault found work) sound (.refl context)
        fun _ impossible => by cases impossible
  | ok place =>
      obtain ⟨owner, value, store⟩ := place
      obtain ⟨develops, ownerIsScope, held⟩ := entry_keeps sound.store isScope found
      obtain ⟨lastSound, grows, holds⟩ := keeps_lending { context with store } stable
        (leaves owner value store develops.grows develops.sound held)
        (fun later changed laterSound retains changedHeld =>
          develops_setEntry laterSound (retains.scopes owner ownerIsScope) key changedHeld)
      refine .of_eq (withEntry_of_found found work) lastSound ?_ fun answer same => ?_
      · have first : context.Grows { context with store } :=
          ⟨develops.grows, fun _ same => same, fun _ same => same⟩
        exact first.trans grows
      · cases same
        exact holds

end InPlace

end Context

end ScopedValues
