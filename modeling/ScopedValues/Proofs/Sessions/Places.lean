import ScopedValues.Proofs.Sessions.Variables
import ScopedValues.Session.Action

/-!
Contract: the work at places that keeps contexts sound.

Owns the invariant of a place, the law of each hop, and the law of each action, which
yields a held value.

Main statement: work at the end of a path keeps its place sound if it does so at every
sound place.
-/

set_option autoImplicit false

namespace ScopedValues

open Store

/-- Every value that an outcome yields is held. -/
def Outcome.Held (store : Store) (outcome : Outcome) : Prop :=
  ∀ value, outcome.yielded = some value → value.Held store

theorem Outcome.held_of_none (store : Store) (answer : Answer) :
    Outcome.Held store { answer } := by
  intro value impossible
  cases impossible

/-! ## Actions on containers -/

namespace Context

variable {context : Context}

/-- The work keeps contexts sound and yields a held value, if it yields one. -/
abbrev Delivers (context : Context) (work : ContextM Outcome) : Prop :=
  discipline.Keeps context work fun outcome after => outcome.Held after.store

theorem delivers_of_steady {α : Type} {work : ContextM α} (steady : context.Steady work)
    (answer : α → Answer) : context.Delivers (do return { answer := answer (← work) }) := by
  apply steady.bind
  intro x later laterSound _ _
  exact .pure laterSound (Outcome.held_of_none _ _)

theorem delivers_yielding (sound : context.Sound) (quiet : Bool) {value : Value}
    (held : value.Held context.store) : context.Delivers (yielding quiet value) := by
  unfold yielding
  split
  · refine .pure sound fun other same => ?_
    cases same
    exact held
  · apply (steady_shown sound value).bind
    intro text later laterSound grows _
    refine .pure laterSound fun other same => ?_
    cases same
    exact held.grow grows.store

theorem delivers_yieldingAny (sound : context.Sound) (quiet : Bool) {found : Option Value}
    (held : ∀ value, found = some value → value.Held context.store) :
    context.Delivers (yieldingAny quiet found) := by
  cases found with
  | none => exact .pure sound (Outcome.held_of_none _ _)
  | some value => exact delivers_yielding sound quiet (held value rfl)

/-- Work on storage whose answer, a held value, is then yielded. -/
theorem delivers_stored (sound : context.Sound) (quiet : Bool)
    (work : Store → Except Fault (Value × Store))
    (keeps : context.store.Keeps (work context.store) fun value after => value.Held after) :
    context.Delivers (do yielding quiet (← onStore work)) := by
  apply (keeps_onStore sound work keeps).bind
  intro value later laterSound _ held
  exact delivers_yielding laterSound quiet held

theorem delivers_storedAny (sound : context.Sound) (quiet : Bool)
    (work : Store → Except Fault (Option Value × Store))
    (keeps : context.store.Keeps (work context.store) fun found after =>
      ∀ value, found = some value → value.Held after) :
    context.Delivers (do yieldingAny quiet (← onStore work)) := by
  apply (keeps_onStore sound work keeps).bind
  intro found later laterSound _ held
  exact delivers_yieldingAny laterSound quiet held

end Context

namespace ListAction

open Context

variable {context : Context}

/-- The value that an action is given, if any, is held. -/
def Held (store : Store) : ListAction Value → Prop
  | .set _ value => value.Held store
  | .push value => value.Held store
  | _ => True

theorem delivers_run (sound : context.Sound) {a : Addr} (isList : context.store.IsList a)
    (quiet : Bool) (action : ListAction Value) (held : action.Held context.store) :
    context.Delivers (action.run quiet a) := by
  cases action with
  | extent => exact delivers_of_steady (steady_ask sound _) _
  | get index =>
      exact delivers_stored sound quiet (·.getItem a index) (keeps_getItem sound.store a index)
  | set index value =>
      exact delivers_stored sound quiet (·.setItem a index value)
        (keeps_setItem sound.store isList held index)
  | push value =>
      apply (keeps_change sound fun _ done =>
        develops_push sound.store isList held done).bind
      intro _ later laterSound _ _
      exact delivers_of_steady (steady_ask laterSound _) _
  | pop index =>
      exact delivers_stored sound quiet (·.pop a index) (keeps_pop sound.store isList index)
  | items =>
      apply (steady_ask sound _).bind
      intro items later laterSound _ _
      exact delivers_of_steady (steady_shownAll laterSound items) id
  | deepCopy =>
      apply (keeps_onStore sound (·.detach a) (keeps_detach_list sound.store isList)).bind
      intro copy later laterSound _ copyIsList
      exact delivers_yielding laterSound quiet ((Value.held_list _ copy).mpr copyIsList)

end ListAction

namespace MapAction

open Context

variable {context : Context}

/-- The value that an action is given, if any, is held. -/
def Held (store : Store) : MapAction Value → Prop
  | .assign _ value => value.Held store
  | .insert _ value => value.Held store
  | _ => True

theorem delivers_ownerOutcome (sound : context.Sound) (holders : Addr → List String) {a : Addr}
    (isScope : context.store.IsScope a) (key : String) :
    context.Delivers (ownerOutcome holders a key) := by
  apply (keeps_ask sound _).bind
  intro owner context laterSound _ kept
  rcases kept with ⟨found, rfl⟩
  cases owner with
  | none => exact .pure laterSound (Outcome.held_of_none _ _)
  | some owner =>
      apply (Discipline.Keeps.get laterSound).bind
      intro _ later _ _ kept
      rcases kept with ⟨rfl, rfl⟩
      refine .pure laterSound fun value same => ?_
      cases same
      exact (Value.held_map _ owner).mpr (owner?_isScope sound.store isScope found)

theorem steady_chainAnswer (sound : context.Sound) (holders : Addr → List String) (a : Addr) :
    context.Steady (chainAnswer holders a) := by
  apply (steady_ask sound _).bind
  intro chain later laterSound _ _
  apply (Discipline.Keeps.mapM (fun scope => ask (·.text (.map scope))) chain laterSound
    (fun scope _ last lastSound _ => steady_ask lastSound _) fun _ _ _ _ _ => trivial).bind
  intro texts last lastSound _ _
  exact .pure lastSound trivial

theorem steady_entriesAnswer (sound : context.Sound) (a : Addr) :
    context.Steady (entriesAnswer a) := by
  apply (steady_ask sound _).bind
  intro table later laterSound _ _
  have row : ∀ entry ∈ table.entries, ∀ last : Context, last.Sound → later.Grows last →
      last.Steady (do
        return Answer.several [.text entry.1, .shown (← shown entry.2)]) := by
    intro entry _ last lastSound _
    apply (steady_shown lastSound entry.2).bind
    intro text final finalSound _ _
    exact .pure finalSound trivial
  apply (Discipline.Keeps.mapM _ table.entries laterSound row fun _ _ _ _ _ => trivial).bind
  intro rows last lastSound _ _
  exact .pure lastSound trivial

theorem delivers_run (sound : context.Sound) {a : Addr} (isScope : context.store.IsScope a)
    (holders : Addr → List String) (quiet : Bool) (action : MapAction Value)
    (held : action.Held context.store) : context.Delivers (action.run holders quiet a) := by
  have storeSound := sound.store
  cases action with
  | extent => exact delivers_of_steady (steady_ask sound _) _
  | contains key => exact delivers_of_steady (steady_ask sound _) _
  | find key =>
      exact delivers_storedAny sound quiet (·.find a key) (keeps_find storeSound a key)
  | lookup key =>
      exact delivers_storedAny sound quiet (·.lookup a key) (keeps_lookup storeSound a key)
  | erase key =>
      exact delivers_storedAny sound quiet (·.erase a key) (keeps_erase storeSound isScope key)
  | owner key => exact delivers_ownerOutcome sound holders isScope key
  | assign key value =>
      exact delivers_of_steady (keeps_assign sound isScope key held) fun _ => .nothing
  | insert key value =>
      exact delivers_storedAny sound quiet (·.insert a key value)
        (keeps_insert storeSound isScope key held)
  | child =>
      apply (keeps_child sound isScope).bind
      intro made later laterSound _ madeIsScope
      exact delivers_yielding laterSound quiet ((Value.held_map _ made).mpr madeIsScope)
  | deepCopy =>
      apply (keeps_onStore sound (·.detach a) (keeps_detach_map storeSound isScope)).bind
      intro copy later laterSound _ copyIsScope
      exact delivers_yielding laterSound quiet ((Value.held_map _ copy).mpr copyIsScope)
  | parent =>
      apply (keeps_ask sound _).bind
      intro parent context laterSound _ kept
      rcases kept with ⟨found, rfl⟩
      refine delivers_yieldingAny laterSound quiet fun value same => ?_
      obtain ⟨outer, rfl, rfl⟩ := Option.map_eq_some_iff.mp same
      exact (Value.held_map _ outer).mpr (parent?_isScope storeSound found)
  | chain => exact delivers_of_steady (steady_chainAnswer sound holders a) id
  | entries => exact delivers_of_steady (steady_entriesAnswer sound a) id

end MapAction

/-! ## Places -/

namespace Place

/-- The invariant of a place: a sound context that holds the value of the place. -/
structure Sound (place : Place) : Prop where
  context : place.context.Sound
  value : place.value.Held place.context.store

def discipline : Discipline Place where
  sound := Sound
  grows before after := before.context.Grows after.context
  refl place := .refl place.context
  trans _ _ _ := Context.Grows.trans

variable {place : Place}

theorem inContext_eq {α : Type} (work : ContextM α) (place : Place) :
    inContext work place =
      ((work place.context).1.mapError Failure.fault,
        { place with context := (work place.context).2 }) := by
  refine (Discipline.bind_get _ place).trans ?_
  rcases work place.context with ⟨answer | fault, context⟩ <;> rfl

theorem keeps_inContext (sound : place.Sound) {α : Type} {work : ContextM α}
    {result : α → Context → Prop} (keeps : Context.discipline.Keeps place.context work result) :
    discipline.Keeps place (inContext work) fun x after => result x after.context := by
  obtain ⟨contextSound, grows, holds⟩ := keeps
  have placeSound : Sound { place with context := (work place.context).2 } :=
    ⟨contextSound, sound.value.grow grows.store⟩
  refine .of_eq (inContext_eq work place) placeSound grows ?_
  intro x answered
  exact holds x (Discipline.eq_ok_of_mapError answered)

theorem keeps_here (sound : place.Sound) :
    discipline.Keeps place here fun value after => after = place ∧ value = place.value := by
  apply (Discipline.Keeps.get sound).bind
  intro _ later laterSound _ kept
  rcases kept with ⟨rfl, rfl⟩
  exact .pure laterSound ⟨rfl, rfl⟩

theorem isList_of_asList? {store : Store} {value : Value} {a : Addr} (held : value.Held store)
    (here : value.asList? = some a) : store.IsList a := by
  cases value with
  | list b =>
      cases here
      exact (Value.held_list store a).mp held
  | _ => cases here

theorem isScope_of_asMap? {store : Store} {value : Value} {a : Addr} (held : value.Held store)
    (here : value.asMap? = some a) : store.IsScope a := by
  cases value with
  | map b =>
      cases here
      exact (Value.held_map store a).mp held
  | _ => cases here

theorem held_of_asTuple? {store : Store} {value : Value} {items : List Value}
    (held : value.Held store) (here : value.asTuple? = some items) :
    ∀ item ∈ items, item.Held store := by
  cases value with
  | tuple others =>
      cases here
      exact (Value.held_tuple store items).mp held
  | _ => cases here

/-- What is known of the contents of a value of a kind is known of the contents here. -/
theorem keeps_hereAs (sound : place.Sound) {α : Type} {kind : Value → Option α}
    {known : α → Store → Prop}
    (sure : ∀ {store : Store} {value : Value} {content : α}, value.Held store →
      kind value = some content → known content store) :
    discipline.Keeps place (hereAs kind) fun content after =>
      known content after.context.store ∧ after = place := by
  apply (keeps_here sound).bind
  intro value later laterSound _ kept
  rcases kept with ⟨rfl, rfl⟩
  cases here : kind later.value with
  | none => exact .throw laterSound _
  | some content => exact .pure laterSound ⟨sure laterSound.value here, rfl⟩

theorem keeps_requireWritable (sound : place.Sound) :
    discipline.Keeps place requireWritable fun _ after => after = place := by
  apply (Discipline.Keeps.get sound).bind
  intro _ later laterSound _ kept
  rcases kept with ⟨rfl, rfl⟩
  split
  · exact .throw laterSound _
  · exact .pure laterSound rfl

theorem keeps_exchange (sound : place.Sound) {changed : Value}
    (held : changed.Held place.context.store) :
    discipline.Keeps place (exchange changed) fun _ after =>
      after = { place with value := changed } :=
  .modify ⟨sound.context, held⟩ (.refl place.context)

/-! ## Hops -/

section Hops

variable {ρ : Type} {result : ρ → Store → Prop}

/-- Wherever `start` is retained, the work keeps its place sound and answers as it should. -/
def Serves (start : Store) (work : PlaceM ρ) (result : ρ → Store → Prop) : Prop :=
  ∀ place, Sound place → start.Retains place.context.store →
    discipline.Keeps place work fun x after => result x after.context.store

variable {start : Store} {work : PlaceM ρ}

theorem keeps_visiting (serves : Serves start work result) (sound : place.Sound)
    (retains : start.Retains place.context.store) {value : Value}
    (held : value.Held place.context.store) (writable : Bool) :
    discipline.Keeps place (visiting value writable work) fun x after =>
      result x after.context.store := by
  obtain ⟨visitedSound, grows, holds⟩ :=
    serves { value, writable, context := place.context } ⟨sound.context, held⟩ retains
  refine .of_eq rfl ?_ grows holds
  exact ⟨visitedSound.context, sound.value.grow grows.store⟩

theorem keeps_visitingCopy (serves : Serves start work result) (sound : place.Sound)
    (retains : start.Retains place.context.store) {found : Option Value}
    (held : ∀ value, found = some value → value.Held place.context.store) :
    discipline.Keeps place (visitingCopy found work) fun x after =>
      result x after.context.store := by
  cases found with
  | none => exact .throw sound _
  | some value => exact keeps_visiting serves sound retains (held value rfl) true

/-- What is said of an answer, said of an outcome that may be a failure. -/
def OfAnswer (result : ρ → Store → Prop) (outcome : Except Failure ρ) (store : Store) : Prop :=
  ∀ x, outcome = .ok x → result x store

theorem stable_ofAnswer (stable : Context.Stable result) : Context.Stable (OfAnswer result) :=
  fun _ before after retains holds x same => stable x before after retains (holds x same)

theorem keeps_answered (sound : place.Sound) {outcome : Except Failure ρ}
    (holds : OfAnswer result outcome place.context.store) :
    discipline.Keeps place (answered outcome) fun x after => result x after.context.store := by
  cases outcome with
  | error failure => exact .throw sound failure
  | ok x => exact .pure sound (holds x rfl)

theorem lent_leaves (serves : Serves start work result) {context : Context}
    (sound : context.Sound) (retains : start.Retains context.store) {value : Value}
    (held : value.Held context.store) :
    Context.Leaves context (lent work value context) (OfAnswer result) := by
  obtain ⟨placeSound, grows, holds⟩ :=
    serves { value, writable := true, context } ⟨sound, held⟩ retains
  exact ⟨placeSound.context, grows, placeSound.value, holds⟩

theorem serves_hop (stable : Context.Stable result) (serves : Serves start work result)
    (next : Hop) : Serves start (hop next work) result := by
  intro place sound retains
  cases next with
  | item index =>
      apply (keeps_hereAs sound isList_of_asList?).bind
      intro a later laterSound _ kept
      rcases kept with ⟨isList, rfl⟩
      have changes := Context.keeps_withItem laterSound.context isList index
        (stable_ofAnswer stable) fun value held =>
          lent_leaves serves (Context.sound_lend laterSound.context a)
            (retains.trans (.of_payloads rfl)) (held.retain (.of_payloads rfl))
      apply (keeps_inContext laterSound changes).bind
      intro outcome last lastSound _ holds
      exact keeps_answered lastSound holds
  | entry key =>
      apply (keeps_hereAs sound isScope_of_asMap?).bind
      intro a later laterSound _ kept
      rcases kept with ⟨isScope, rfl⟩
      have leaves : ∀ owner value store, later.context.store.Grows store → store.Sound →
          value.Held store →
            Context.Leaves { later.context with store := store.lend owner }
              (lent work value { later.context with store := store.lend owner })
              (OfAnswer result) := by
        intro owner value store grows storeSound held
        have lent := Retains.of_payloads (payloads_lend store owner)
        have onward := grows.toRetains.trans lent
        exact lent_leaves serves
          (laterSound.context.retain (storeSound.of_payloads (payloads_lend store owner)) onward)
          (retains.trans onward) (held.retain lent)
      have changes := Context.keeps_withEntry laterSound.context isScope key
        (stable_ofAnswer stable) leaves
      apply (keeps_inContext laterSound changes).bind
      intro outcome last lastSound _ holds
      exact keeps_answered lastSound holds
  | element position =>
      apply (keeps_hereAs sound held_of_asTuple?).bind
      intro items later laterSound _ kept
      rcases kept with ⟨held, rfl⟩
      cases found : items[position]? with
      | none => exact .throw laterSound _
      | some element =>
          exact keeps_visiting serves laterSound retains
            (held element (List.mem_of_getElem? found)) false
  | get index =>
      apply (keeps_hereAs sound isList_of_asList?).bind
      intro a later laterSound _ kept
      rcases kept with ⟨_, rfl⟩
      apply (keeps_inContext laterSound (Context.keeps_onStore laterSound.context
        (·.getItem a index) (keeps_getItem laterSound.context.store a index))).bind
      intro copy last lastSound grows held
      exact keeps_visiting serves lastSound (retains.trans grows.store.toRetains) held true
  | find key =>
      apply (keeps_hereAs sound isScope_of_asMap?).bind
      intro a later laterSound _ kept
      rcases kept with ⟨_, rfl⟩
      apply (keeps_inContext laterSound (Context.keeps_onStore laterSound.context
        (·.find a key) (keeps_find laterSound.context.store a key))).bind
      intro found last lastSound grows held
      exact keeps_visitingCopy serves lastSound (retains.trans grows.store.toRetains) held
  | lookup key =>
      apply (keeps_hereAs sound isScope_of_asMap?).bind
      intro a later laterSound _ kept
      rcases kept with ⟨_, rfl⟩
      apply (keeps_inContext laterSound (Context.keeps_onStore laterSound.context
        (·.lookup a key) (keeps_lookup laterSound.context.store a key))).bind
      intro found last lastSound grows held
      exact keeps_visitingCopy serves lastSound (retains.trans grows.store.toRetains) held

theorem serves_follow (stable : Context.Stable result) (serves : Serves start work result)
    (path : List Hop) : Serves start (follow path work) result := by
  induction path with
  | nil => exact serves
  | cons next rest inductionHypothesis => exact serves_hop stable inductionHypothesis next

end Hops

end Place

end ScopedValues
