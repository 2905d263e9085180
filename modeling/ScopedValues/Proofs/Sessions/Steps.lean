import ScopedValues.Proofs.Sessions.Places
import ScopedValues.Session.Report

/-!
Contract: the steps of a session keep it sound.

Owns the law of the actions at places, of paths, and of every step.

Main statement: every step, whether it fails or not, leaves a sound session that has
grown out of the one it was performed in.
-/

set_option autoImplicit false

namespace ScopedValues

open Store

/-! ## Actions at places -/

/-- The value that an action is given, if any, is held. -/
def TupleAction.Held (store : Store) : TupleAction Value → Prop
  | .push value => value.Held store
  | _ => True

/-- The value that an action is given, if any, is held. -/
def Action.Held (store : Store) : Action Value → Prop
  | .replace value => value.Held store
  | .onTuple action => action.Held store
  | .onList action => action.Held store
  | .onMap action => action.Held store
  | _ => True

namespace Place

variable {place : Place}

/-- The work keeps its place sound and yields a held value, if it yields one. -/
abbrev Delivers (place : Place) (work : PlaceM Outcome) : Prop :=
  discipline.Keeps place work fun outcome after => outcome.Held after.context.store

theorem delivers_inContext (sound : place.Sound) {work : ContextM Outcome}
    (delivers : place.context.Delivers work) : place.Delivers (inContext work) :=
  keeps_inContext sound delivers

theorem delivers_answer {α : Type} (sound : place.Sound) {work : ContextM α}
    (steady : place.context.Steady work) (answer : α → Answer) :
    place.Delivers (do return { answer := answer (← inContext work) }) := by
  apply (keeps_inContext sound steady).bind
  intro x later laterSound _ _
  exact .pure laterSound (Outcome.held_of_none _ _)

/-- Work on storage whose answer, a held value, is then yielded. -/
theorem delivers_stored (sound : place.Sound) (quiet : Bool)
    (work : Store → Except Fault (Value × Store))
    (keeps : place.context.store.Keeps (work place.context.store) fun value after =>
      value.Held after) :
    place.Delivers (do
      let copy ← inContext (Context.onStore work)
      inContext (Context.yielding quiet copy)) := by
  apply (keeps_inContext sound (Context.keeps_onStore sound.context work keeps)).bind
  intro copy later laterSound _ held
  exact delivers_inContext laterSound (Context.delivers_yielding laterSound.context quiet held)

theorem delivers_onTuple (sound : place.Sound) (quiet : Bool) (action : TupleAction Value)
    (held : action.Held place.context.store) : place.Delivers (action.run quiet) := by
  unfold TupleAction.run
  cases action with
  | push value =>
      simp only [TupleAction.needsPlace, if_true]
      apply (keeps_requireWritable sound).bind
      intro _ one oneSound _ same
      subst same
      apply (keeps_hereAs oneSound held_of_asTuple?).bind
      intro items two twoSound _ kept
      rcases kept with ⟨itemsHeld, rfl⟩
      apply (keeps_inContext twoSound (Context.keeps_onStore twoSound.context (·.deepCopy value)
        (keeps_deepCopy twoSound.context.store held))).bind
      intro copy three threeSound grows copyHeld
      have extended : (Value.tuple (items ++ [copy])).Held three.context.store := by
        rw [Value.held_tuple]
        intro item member
        rcases List.mem_append.mp member with old | new
        · exact (itemsHeld item old).grow grows.store
        · rw [List.mem_singleton.mp new]
          exact copyHeld
      apply (keeps_exchange threeSound extended).bind
      intro _ _ lastSound _ same
      subst same
      exact .pure lastSound (Outcome.held_of_none _ _)
  | pop =>
      simp only [TupleAction.needsPlace, if_true]
      apply (keeps_requireWritable sound).bind
      intro _ one oneSound _ same
      subst same
      apply (keeps_hereAs oneSound held_of_asTuple?).bind
      intro items two twoSound _ kept
      rcases kept with ⟨itemsHeld, rfl⟩
      cases items with
      | nil => exact .throw twoSound _
      | cons first rest =>
          rw [List.forall_mem_cons] at itemsHeld
          apply (keeps_exchange twoSound ((Value.held_tuple _ rest).mpr itemsHeld.2)).bind
          intro _ _ lastSound _ same
          subst same
          exact delivers_inContext lastSound
            (Context.delivers_yielding lastSound.context quiet itemsHeld.1)
  | extent =>
      simp only [TupleAction.needsPlace, if_false, Bool.false_eq_true]
      apply (keeps_hereAs sound held_of_asTuple?).bind
      intro items later laterSound _ _
      exact .pure laterSound (Outcome.held_of_none _ _)
  | get position =>
      simp only [TupleAction.needsPlace, if_false, Bool.false_eq_true]
      apply (keeps_hereAs sound held_of_asTuple?).bind
      intro items later laterSound _ kept
      rcases kept with ⟨itemsHeld, rfl⟩
      cases found : items[position]? with
      | none => exact .pure laterSound (Outcome.held_of_none _ _)
      | some element =>
          exact delivers_stored laterSound quiet (·.copy element)
            (keeps_copy laterSound.context.store
              (itemsHeld element (List.mem_of_getElem? found)))
  | items =>
      simp only [TupleAction.needsPlace, if_false, Bool.false_eq_true]
      apply (keeps_hereAs sound held_of_asTuple?).bind
      intro items later laterSound _ _
      exact delivers_answer laterSound (Context.steady_shownAll laterSound.context items) id
  | copiedItems =>
      simp only [TupleAction.needsPlace, if_false, Bool.false_eq_true]
      apply (keeps_hereAs sound held_of_asTuple?).bind
      intro items later laterSound _ kept
      rcases kept with ⟨itemsHeld, rfl⟩
      apply (keeps_inContext laterSound (Context.keeps_onStore laterSound.context
        (·.deepCopyAll items) (keeps_deepCopyAll laterSound.context.store itemsHeld))).bind
      intro copies last lastSound _ _
      exact delivers_answer lastSound (Context.steady_shownAll lastSound.context copies) id

theorem delivers_run (sound : place.Sound) (holders : Addr → List String) (quiet : Bool)
    (action : Action Value) (held : action.Held place.context.store) :
    place.Delivers (action.run holders quiet) := by
  cases action with
  | read =>
      apply (keeps_here sound).bind
      intro value later laterSound _ kept
      rcases kept with ⟨rfl, rfl⟩
      exact delivers_stored laterSound quiet (·.copy later.value)
        (keeps_copy laterSound.context.store laterSound.value)
  | kind =>
      apply (keeps_here sound).bind
      intro value later laterSound _ _
      exact .pure laterSound (Outcome.held_of_none _ _)
  | truth =>
      apply (keeps_here sound).bind
      intro value later laterSound _ _
      exact delivers_answer laterSound (Context.steady_truth? laterSound.context value) _
  | spell =>
      apply (keeps_here sound).bind
      intro value later laterSound _ _
      exact delivers_answer laterSound (Context.steady_ask laterSound.context _) _
  | replace value =>
      apply (keeps_requireWritable sound).bind
      intro _ one oneSound _ same
      subst same
      apply (keeps_here oneSound).bind
      intro old two twoSound _ kept
      rcases kept with ⟨rfl, rfl⟩
      apply (keeps_exchange twoSound held).bind
      intro _ _ lastSound _ same
      subst same
      exact delivers_inContext lastSound
        (Context.delivers_yielding lastSound.context quiet twoSound.value)
  | onTuple action => exact delivers_onTuple sound quiet action held
  | onList action =>
      apply (keeps_hereAs sound isList_of_asList?).bind
      intro a later laterSound _ kept
      rcases kept with ⟨isList, rfl⟩
      exact delivers_inContext laterSound
        (ListAction.delivers_run laterSound.context isList quiet action held)
  | onMap action =>
      apply (keeps_hereAs sound isScope_of_asMap?).bind
      intro a later laterSound _ kept
      rcases kept with ⟨isScope, rfl⟩
      exact delivers_inContext laterSound
        (MapAction.delivers_run laterSound.context isScope holders quiet action held)

end Place

/-! ## Parts of steps -/

namespace Session

variable {session : Session}

/-- The work keeps sessions sound and yields a held value, if it yields one. -/
abbrev Delivers (session : Session) (work : SessionM Outcome) : Prop :=
  discipline.Keeps session work fun outcome after => outcome.Held after.context.store

theorem steady_inContext {α : Type} (sound : session.Sound) {work : ContextM α}
    (steady : session.context.Steady work) : session.Steady (inContext work) :=
  keeps_inContext sound steady

theorem steady_answer {α : Type} {work : SessionM α} (steady : session.Steady work)
    (answer : α → Answer) : session.Steady (do return answer (← work)) := by
  apply steady.bind
  intro x later laterSound _ _
  exact .pure laterSound trivial

theorem steady_keeping (sound : session.Sound) (keep : Keep) {outcome : Outcome}
    (held : outcome.Held session.context.store) : session.Steady (keeping keep outcome) := by
  unfold keeping
  cases keep.name with
  | none => exact .pure sound trivial
  | some name =>
      cases yielded : outcome.yielded with
      | none => exact .pure sound trivial
      | some value =>
          apply (steady_bind sound name (held value yielded)).bind
          intro _ later laterSound _ _
          exact .pure laterSound trivial

theorem steady_yielding (sound : session.Sound) (keep : Keep) {value : Option Value}
    (held : ∀ x, value = some x → x.Held session.context.store) :
    session.Steady (yielding keep value) := by
  apply (keeps_inContext sound (Context.delivers_yieldingAny sound.context keep.quiet held)).bind
  intro outcome later laterSound _ outcomeHeld
  exact steady_keeping laterSound keep outcomeHeld

theorem keeps_cursor? (sound : session.Sound) (name : String) :
    session.Steady (cursor? name) := by
  apply (Discipline.Keeps.get sound).bind
  intro _ later laterSound _ kept
  rcases kept with ⟨rfl, rfl⟩
  cases later.cursors.get? name with
  | none => exact .throw laterSound _
  | some cursor => exact .pure laterSound trivial

theorem steady_setCursor (sound : session.Sound) (name : String) (cursor : Cursor) :
    session.Steady (setCursor name cursor) := by
  have changed : discipline.Keeps session (setCursor name cursor) fun _ after =>
      after = { session with cursors := session.cursors.insert name cursor } :=
    .modify ⟨sound.context, sound.named⟩ (.refl session.context)
  exact changed.mono fun _ _ _ => trivial

theorem stable_held : Context.Stable fun (outcome : Outcome) store => outcome.Held store :=
  fun _ _ _ retains held value same => (held value same).retain retains

theorem atPath_of_bound {name : String} {value : Value}
    (bound : session.named.get? name = some value) (path : List Hop) (work : PlaceM Outcome) :
    atPath name path work session =
      ((Place.follow path work { value, writable := true, context := session.context }).1,
        { session with
          context := (Place.follow path work
            { value, writable := true, context := session.context }).2.context
          named := session.named.insert name (Place.follow path work
            { value, writable := true, context := session.context }).2.value }) := by
  refine (Discipline.bind_of_ok (valueOf_of_bound bound)).trans ?_
  refine (Discipline.bind_get _ session).trans ?_
  generalize Place.follow path work
    { value, writable := true, context := session.context } = outcome
  obtain ⟨answer | failure, place⟩ := outcome <;> rfl

theorem delivers_atPath (sound : session.Sound) (name : String) (path : List Hop)
    {work : PlaceM Outcome}
    (serves : Place.Serves session.context.store work fun outcome store => outcome.Held store) :
    session.Delivers (atPath name path work) := by
  apply (yields_valueOf sound name).bind
  intro value later laterSound growsLater held
  apply (Discipline.Keeps.get laterSound).bind
  intro _ session _ _ kept
  rcases kept with ⟨rfl, rfl⟩
  have followed := Place.serves_follow stable_held serves path
    { value, writable := true, context := session.context } ⟨laterSound.context, held⟩
    growsLater.store.toRetains
  obtain ⟨placeSound, grows, holds⟩ := followed
  generalize Place.follow path work { value, writable := true, context := session.context } =
    outcome at placeSound grows holds ⊢
  obtain ⟨answer, place⟩ := outcome
  have stored : Sound
      { session with
        context := place.context
        named := session.named.insert name place.value } := by
    refine ⟨placeSound.context, fun entry member => ?_⟩
    rcases Table.mem_insert member with rfl | old
    · exact placeSound.value
    · exact (laterSound.named entry old).grow grows.store
  have onward : session.context.Grows place.context := grows
  have written : discipline.Keeps session (set (Session.mk place.context
      (session.named.insert name place.value) session.cursors) : SessionM PUnit) _ :=
    .set stored onward
  apply written.bind
  intro _ _ lastSound _ same
  subst same
  cases answer with
  | error failure => exact .throw lastSound failure
  | ok outcome => exact .pure lastSound (holds outcome rfl)

theorem steady_descent {context : Context} (sound : context.Sound) (inner outer : Value) :
    context.Steady (descent inner outer) := by
  unfold descent
  split
  · apply (Context.steady_ask sound _).bind
    intro inside later laterSound _ _
    exact .pure laterSound trivial
  · exact .pure sound trivial

theorem delivers_globalOutcome {context : Context} (sound : context.Sound) (key : String)
    {value : Value} (held : value.Held context.store) :
    context.Delivers (globalOutcome key value) := by
  apply (Context.keeps_globalScope sound).bind
  intro scope one oneSound growsOne isScope
  apply (Context.keeps_assign oneSound isScope key (held.grow growsOne.store)).bind
  intro _ two twoSound growsTwo _
  apply (Context.keeps_onStore twoSound (·.lookup scope key)
    (keeps_lookup twoSound.store scope key)).bind
  intro found three threeSound growsThree _
  have showing : three.Steady (found.mapM Context.shown) := by
    cases found with
    | none => exact .pure threeSound trivial
    | some copy =>
        apply (Context.steady_shown threeSound copy).bind
        intro text later laterSound _ _
        exact .pure laterSound trivial
  apply showing.bind
  intro text four fourSound growsFour _
  apply (Context.steady_ask fourSound _).bind
  intro table five fiveSound growsFive _
  apply (Context.keeps_defaultGlobalScope fiveSound).bind
  intro enclosing six sixSound growsSix _
  apply (Context.steady_ask sixSound _).bind
  intro inside seven sevenSound growsSeven _
  apply (Context.steady_ask sevenSound _).bind
  intro plain last lastSound growsLast _
  refine .pure lastSound fun other same => ?_
  cases same
  rw [Value.held_map]
  have grown := ((((growsTwo.trans growsThree).trans growsFour).trans growsFive).trans
    growsSix).trans (growsSeven.trans growsLast)
  exact grown.store.scopes scope isScope

theorem steady_scopeText? {context : Context} (sound : context.Sound) (a : Addr) :
    context.Steady (scopeText? a) := by
  apply (Context.steady_ask sound _).bind
  intro tree later laterSound _ _
  cases tree <;> exact .pure laterSound trivial

theorem steady_scopeDataAnswer {context : Context} (sound : context.Sound)
    (parent : Option Addr) : context.Steady (scopeDataAnswer parent) := by
  cases parent with
  | none => exact .pure sound trivial
  | some a =>
      apply (Context.steady_ask sound _).bind
      intro text one oneSound _ _
      apply (steady_scopeText? oneSound a).bind
      intro inspected last lastSound _ _
      exact .pure lastSound trivial

theorem steady_passing (sound : session.Sound) (name : String) (count : Option Nat) :
    session.Steady (passing name count) := by
  apply (keeps_cursor? sound name).bind
  intro cursor later laterSound _ _
  refine (keeps_inContext laterSound (Context.keeps_onStore laterSound.context _
    (show later.context.store.Keeps _ (fun answer after => ∀ value ∈ answer.1, value.Held after)
      from ?_))).bind ?_
  · cases count with
    | none => exact Cursor.keeps_pass laterSound.context.store cursor
    | some count => exact Cursor.keeps_take count laterSound.context.store cursor
  · intro answer last lastSound _ _
    rcases answer with ⟨values, after⟩
    apply (steady_setCursor lastSound name after).bind
    intro _ final finalSound _ _
    exact steady_inContext finalSound (Context.steady_shownAll finalSound.context values)

theorem steady_repeatedly {work : SessionM Answer}
    (steady : ∀ {session : Session}, session.Sound → session.Steady work) (count : Nat) :
    ∀ {session : Session}, session.Sound → session.Steady (repeatedly work count) := by
  induction count with
  | zero => exact fun sound => .pure sound trivial
  | succ count inductionHypothesis =>
      intro session sound
      apply (steady sound).bind
      intro answer later laterSound _ _
      split
      · exact .pure laterSound trivial
      · exact inductionHypothesis laterSound

/-! ## Values given to actions -/

theorem keeps_giveTuple (sound : session.Sound) (action : TupleAction Expr) :
    discipline.Keeps session (action.give eval) fun given after =>
      given.Held after.context.store := by
  cases action with
  | push expr =>
      apply (yields_eval expr sound).bind
      intro value later laterSound _ held
      exact .pure laterSound held
  | pop => exact .pure sound trivial
  | extent => exact .pure sound trivial
  | get position => exact .pure sound trivial
  | items => exact .pure sound trivial
  | copiedItems => exact .pure sound trivial

theorem keeps_giveList (sound : session.Sound) (action : ListAction Expr) :
    discipline.Keeps session (action.give eval) fun given after =>
      given.Held after.context.store := by
  cases action with
  | set index expr =>
      apply (yields_eval expr sound).bind
      intro value later laterSound _ held
      exact .pure laterSound held
  | push expr =>
      apply (yields_eval expr sound).bind
      intro value later laterSound _ held
      exact .pure laterSound held
  | extent => exact .pure sound trivial
  | get index => exact .pure sound trivial
  | pop index => exact .pure sound trivial
  | items => exact .pure sound trivial
  | deepCopy => exact .pure sound trivial

theorem keeps_giveMap (sound : session.Sound) (action : MapAction Expr) :
    discipline.Keeps session (action.give eval) fun given after =>
      given.Held after.context.store := by
  cases action with
  | assign key expr =>
      apply (yields_eval expr sound).bind
      intro value later laterSound _ held
      exact .pure laterSound held
  | insert key expr =>
      apply (yields_eval expr sound).bind
      intro value later laterSound _ held
      exact .pure laterSound held
  | extent => exact .pure sound trivial
  | contains key => exact .pure sound trivial
  | find key => exact .pure sound trivial
  | lookup key => exact .pure sound trivial
  | erase key => exact .pure sound trivial
  | owner key => exact .pure sound trivial
  | child => exact .pure sound trivial
  | deepCopy => exact .pure sound trivial
  | parent => exact .pure sound trivial
  | chain => exact .pure sound trivial
  | entries => exact .pure sound trivial

theorem keeps_give (sound : session.Sound) (action : Action Expr) :
    discipline.Keeps session (action.give eval) fun given after =>
      given.Held after.context.store := by
  cases action with
  | read => exact .pure sound trivial
  | kind => exact .pure sound trivial
  | truth => exact .pure sound trivial
  | spell => exact .pure sound trivial
  | replace expr =>
      apply (yields_eval expr sound).bind
      intro value later laterSound _ held
      exact .pure laterSound held
  | onTuple action =>
      apply (keeps_giveTuple sound action).bind
      intro given later laterSound _ held
      exact .pure laterSound held
  | onList action =>
      apply (keeps_giveList sound action).bind
      intro given later laterSound _ held
      exact .pure laterSound held
  | onMap action =>
      apply (keeps_giveMap sound action).bind
      intro given later laterSound _ held
      exact .pure laterSound held

theorem Action.Held.retain {action : Action Value} {before after : Store}
    (held : action.Held before) (retains : before.Retains after) : action.Held after := by
  cases action with
  | replace value => exact Value.Held.retain held retains
  | onTuple action => cases action <;> first | exact Value.Held.retain held retains | trivial
  | onList action => cases action <;> first | exact Value.Held.retain held retains | trivial
  | onMap action => cases action <;> first | exact Value.Held.retain held retains | trivial
  | read => trivial
  | kind => trivial
  | truth => trivial
  | spell => trivial

/-! ## Steps -/

section Cases

variable (sound : session.Sound)

include sound

/-- Work on the value of an operand, and an answer that is made of what it comes to. -/
theorem steady_onOperand {α : Type} (x : Operand) {work : Value → ContextM α}
    (answer : α → Answer) (steady : ∀ {context : Context} {value : Value}, context.Sound →
      value.Held context.store → context.Steady (work value)) :
    session.Steady (do
      let value ← operand x
      return answer (← inContext (work value))) := by
  apply (yields_operand sound x).bind
  intro value later laterSound _ held
  exact steady_answer (steady_inContext laterSound (steady laterSound.context held)) answer

theorem steady_onOperands (x y : Operand) {work : Value → Value → SessionM Answer}
    (steady : ∀ {later : Session} (left right : Value), later.Sound →
      later.Steady (work left right)) :
    session.Steady (do
      let (left, right) ← operands x y
      work left right) := by
  apply (keeps_operands sound x y).bind
  intro answer later laterSound _ _
  obtain ⟨left, right⟩ := answer
  exact steady left right laterSound

theorem steady_store (name : String) (expr : Expr) :
    session.Steady (perform (.store name expr)) := by
  apply (yields_eval expr sound).bind
  intro value one oneSound _ held
  apply (steady_inContext oneSound (Context.steady_shown oneSound.context value)).bind
  intro text two twoSound grows _
  apply (steady_bind twoSound name (held.grow grows.store)).bind
  intro _ last lastSound _ _
  exact .pure lastSound trivial

theorem steady_drop (name : String) : session.Steady (perform (.drop name)) := by
  apply (Discipline.Keeps.get sound).bind
  intro found one oneSound _ _
  apply (steady_unbind oneSound name).bind
  intro _ last lastSound _ _
  exact .pure lastSound trivial

theorem steady_scope (scope : ScopeExpr) (keep : Keep) :
    session.Steady (perform (.scope scope keep)) := by
  apply (keeps_evalScope sound scope).bind
  intro a later laterSound _ isScope
  refine steady_yielding laterSound keep fun value same => ?_
  cases same
  exact (Value.held_map _ a).mpr isScope

theorem steady_globalScope (key : String) (expr : Expr) (keep : Keep) :
    session.Steady (perform (.globalScope key expr keep)) := by
  apply (yields_eval expr sound).bind
  intro value later laterSound _ held
  apply (keeps_inContext laterSound (delivers_globalOutcome laterSound.context key held)).bind
  intro outcome last lastSound _ outcomeHeld
  exact steady_keeping lastSound keep outcomeHeld

theorem steady_scopeData (parent : Option String) :
    session.Steady (perform (.scopeData parent)) := by
  have located : session.Steady (parent.mapM scopeOf) := by
    cases parent with
    | none => exact .pure sound trivial
    | some name =>
        apply (keeps_scopeOf sound name).bind
        intro a later laterSound _ _
        exact .pure laterSound trivial
  apply located.bind
  intro parent later laterSound _ _
  exact steady_inContext laterSound (steady_scopeDataAnswer laterSound.context parent)

theorem steady_toList (value : Operand) (keep : Keep) :
    session.Steady (perform (.toList value keep)) := by
  apply (yields_operand sound value).bind
  intro value one oneSound _ held
  apply (keeps_inContext oneSound (Context.keeps_listOfTuple oneSound.context held)).bind
  intro a last lastSound _ isList
  refine steady_yielding lastSound keep fun value same => ?_
  cases same
  exact (Value.held_list _ a).mpr isList

theorem steady_cursorOver (cursor : String) (value : Operand) :
    session.Steady (perform (.cursorOver cursor value)) := by
  apply (yields_operand sound value).bind
  intro value one oneSound _ _
  cases Cursor.over? value with
  | none => exact .pure oneSound trivial
  | some fresh =>
      apply (steady_setCursor oneSound cursor fresh).bind
      intro _ last lastSound _ _
      exact .pure lastSound trivial

theorem steady_cursorNext (cursor : String) (keep : Keep) :
    session.Steady (perform (.cursorNext cursor keep)) := by
  apply (keeps_cursor? sound cursor).bind
  intro current one oneSound _ _
  apply (keeps_inContext oneSound (Context.keeps_onStore oneSound.context current.next
    (Cursor.keeps_next oneSound.context.store current))).bind
  intro answer two twoSound _ held
  obtain ⟨found, after⟩ := answer
  apply (steady_setCursor twoSound cursor after).bind
  intro _ last lastSound grows _
  exact steady_yielding lastSound keep fun value same => (held value same).grow grows.store

theorem steady_cursorReset (cursor : String) :
    session.Steady (perform (.cursorReset cursor)) := by
  apply (keeps_cursor? sound cursor).bind
  intro current one oneSound _ _
  apply (steady_setCursor oneSound cursor current.reset).bind
  intro _ last lastSound _ _
  exact .pure lastSound trivial

theorem steady_act (name : String) (path : List Hop) (action : Action Expr) (keep : Keep) :
    session.Steady (perform (.act name path action keep)) := by
  apply (keeps_give sound action).bind
  intro given one oneSound _ held
  apply (Discipline.Keeps.get oneSound).bind
  intro _ two twoSound _ kept
  rcases kept with ⟨rfl, rfl⟩
  have serves : Place.Serves two.context.store (given.run (holders two.named) keep.quiet)
      fun outcome store => outcome.Held store := by
    intro place placeSound retains
    exact Place.delivers_run placeSound _ _ given (Action.Held.retain held retains)
  apply (delivers_atPath twoSound name path serves).bind
  intro outcome last lastSound _ outcomeHeld
  exact steady_keeping lastSound keep outcomeHeld

end Cases

mutual

/-- Every step keeps the session sound, whether it fails or not. -/
theorem steady_perform : ∀ (step : Step) {session : Session}, session.Sound →
    session.Steady (perform step)
  | .store name expr, _, sound => steady_store sound name expr
  | .drop name, _, sound => steady_drop sound name
  | .look value, _, sound =>
      steady_onOperand sound value .shown fun contextSound _ =>
        Context.steady_shown contextSound _
  | .profile value, _, sound =>
      steady_onOperand sound value .profile fun contextSound held =>
        Context.steady_profile contextSound held
  | .inspect value, _, sound =>
      steady_onOperand sound value (.ofOption .text) fun contextSound _ =>
        Context.steady_ask contextSound _
  | .compare left right, _, sound =>
      steady_onOperands sound left right fun x y laterSound =>
        steady_answer
          (steady_inContext laterSound (Context.steady_compare laterSound.context x y)) _
  | .identical left right, _, sound =>
      steady_onOperands sound left right fun _ _ laterSound => .pure laterSound trivial
  | .descends inner outer, _, sound =>
      steady_onOperands sound inner outer fun x y laterSound =>
        steady_inContext laterSound (steady_descent laterSound.context x y)
  | .scope scope keep, _, sound => steady_scope sound scope keep
  | .globalScope key expr keep, _, sound => steady_globalScope sound key expr keep
  | .scopeData parent, _, sound => steady_scopeData sound parent
  | .toList value keep, _, sound => steady_toList sound value keep
  | .cursorOver cursor value, _, sound => steady_cursorOver sound cursor value
  | .cursorNext cursor keep, _, sound => steady_cursorNext sound cursor keep
  | .cursorReset cursor, _, sound => steady_cursorReset sound cursor
  | .cursorPass cursor count, _, sound => steady_passing sound cursor count
  | .idle, _, sound => .pure sound trivial
  | .loop count steps, _, sound => steady_repeatedly (steady_performAll steps) count sound
  | .act name path action keep, _, sound => steady_act sound name path action keep
termination_by structural step => step

theorem steady_performAll : ∀ (steps : List Step) {session : Session}, session.Sound →
    session.Steady (performAll steps)
  | [], _, sound => .pure sound trivial
  | step :: rest, _, sound => by
      apply (steady_perform step sound).bind
      intro answer later laterSound _ _
      split
      · exact .pure laterSound trivial
      · exact steady_performAll rest laterSound
termination_by structural steps => steps

end

end Session

end ScopedValues
