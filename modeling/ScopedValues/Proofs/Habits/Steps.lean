import ScopedValues.Proofs.Habits.Contexts
import ScopedValues.Proofs.Ownership.Actions

/-!
Contract: steps that have every habit.

Owns the expressions and steps that enter scopes, the steps that work in place, and the
habits of expressions, paths, actions and steps.

Main statement: a step has every habit that extends to what the step does of the two: to work
in place, and to entering a scope.
-/

set_option autoImplicit false

namespace ScopedValues

open Store

/-! ## Entering scopes -/

/-- Whether the scope is entered from another one. -/
def ScopeExpr.entersScope : ScopeExpr → Bool
  | .global => true
  | .child _ => true
  | _ => false

namespace Expr

mutual

/-- Whether a scope is entered on the way to the value. -/
def entersScope : Expr → Bool
  | .tuple items => anyEntersScope items
  | .copiedTuple items => anyEntersScope items
  | .list items => anyEntersScope items
  | .map scope bindings => scope.entersScope || bindingsEnterScope bindings
  | .nest _ _ inner => inner.entersScope
  | _ => false
termination_by structural expr => expr

def anyEntersScope : List Expr → Bool
  | [] => false
  | item :: rest => item.entersScope || anyEntersScope rest
termination_by structural items => items

def bindingsEnterScope : List (String × Expr) → Bool
  | [] => false
  | binding :: rest => bindingEntersScope binding || bindingsEnterScope rest
termination_by structural bindings => bindings

def bindingEntersScope : String × Expr → Bool
  | (_, expr) => expr.entersScope
termination_by structural binding => binding

end

end Expr

def Operand.entersScope : Operand → Bool
  | .inPlace _ => false
  | .fresh expr => expr.entersScope

def Action.entersScope {ε : Type} : Action ε → Bool
  | .onMap action => action.entersScope
  | _ => false

/-- Whether the hop leads to where the value itself is kept. -/
def Hop.isInPlace : Hop → Bool
  | .item _ => true
  | .entry _ => true
  | _ => false

namespace Step

mutual

/-- Whether a scope is entered in the course of the step. -/
def entersScope : Step → Bool
  | .store _ value => value.entersScope
  | .look value => value.entersScope
  | .profile value => value.entersScope
  | .inspect value => value.entersScope
  | .compare left right => left.entersScope || right.entersScope
  | .identical left right => left.entersScope || right.entersScope
  | .descends inner outer => inner.entersScope || outer.entersScope
  | .scope made _ => made.entersScope
  | .globalScope _ _ _ => true
  | .toList value _ => value.entersScope
  | .cursorOver _ value => value.entersScope
  | .loop _ steps => anyEntersScope steps
  | .act _ _ action _ => action.given?.any Expr.entersScope || action.entersScope
  | _ => false
termination_by structural step => step

def anyEntersScope : List Step → Bool
  | [] => false
  | step :: rest => step.entersScope || anyEntersScope rest
termination_by structural steps => steps

end

mutual

/-- Whether the step works on an element or an entry where it is kept. -/
def worksInPlace : Step → Bool
  | .loop _ steps => anyWorksInPlace steps
  | .act _ path _ _ => path.any Hop.isInPlace
  | _ => false
termination_by structural step => step

def anyWorksInPlace : List Step → Bool
  | [] => false
  | step :: rest => step.worksInPlace || anyWorksInPlace rest
termination_by structural steps => steps

end

end Step

namespace Habit

variable (habit : Habit)

/-! ## Variables and cursors -/

section Names

open Session

theorem valueOf (name : String) : habit.Has (valueOf name) := by
  refine habit.look (fun _ => rfl) fun session => ?_
  cases session.named.get? name with
  | none => exact habit.throw (by simp [Setting.conflict])
  | some value => exact habit.pure value

theorem scopeOf (name : String) : habit.Has (scopeOf name) := by
  refine habit.bind (habit.valueOf name) fun value => ?_
  cases value with
  | map a => exact habit.pure a
  | _ => exact habit.throw (by simp [Setting.conflict])

theorem binds (name : String) (value : Value) : habit.Has (Session.bind name value) :=
  habit.update _ (fun _ => rfl) fun _ => rfl

theorem unbinds (name : String) : habit.Has (unbind name) :=
  habit.update _ (fun _ => rfl) fun _ => rfl

theorem cursor? (name : String) : habit.Has (cursor? name) := by
  refine habit.look (fun _ => rfl) fun session => ?_
  cases session.cursors.get? name with
  | none => exact habit.throw (by simp [Setting.conflict])
  | some cursor => exact habit.pure cursor

theorem setCursor (name : String) (cursor : Cursor) : habit.Has (setCursor name cursor) :=
  habit.update _ (fun _ => rfl) fun _ => rfl

end Names

/-! ## Expressions -/

section Expressions

open Session

theorem evalScope {scope : ScopeExpr} (entering : scope.entersScope = true → habit.enters) :
    habit.Has (evalScope scope) := by
  -- The match is opened first: left closed, each rule below is tried against all of it.
  unfold Session.evalScope
  cases scope <;> dsimp only
  case root => exact habit.inSession habit.newRoot
  case inBase => exact habit.inSession habit.newScope
  case base => exact habit.inSession habit.baseScope
  case defaultGlobal => exact habit.inSession habit.defaultGlobalScope
  case global => exact habit.inSession (habit.globalScope (entering rfl))
  case child name =>
    exact habit.bind (habit.scopeOf name) fun parent =>
      habit.inSession (habit.child (entering rfl) parent)
  case within name =>
    exact habit.bind (habit.scopeOf name) fun parent => habit.inSession (habit.newChild parent)

theorem insertBinding (a : Addr) (key : String) (value : Value) :
    habit.Has (insertBinding a key value) :=
  habit.bind (habit.inSession (habit.insert a key value)) fun _ => habit.pure _

theorem rootWith (bindings : List (String × Value)) : habit.Has (rootWith bindings) := by
  refine habit.bind (habit.evalScope nofun) fun a => ?_
  exact habit.bind (habit.forM fun binding _ => habit.insertBinding a binding.1 binding.2) fun _ =>
    habit.pure _

theorem build (shape : Shape) (parts : List (String × Value)) : habit.Has (build shape parts) := by
  cases shape with
  | list => exact habit.bind (habit.inSession (habit.newList _)) fun _ => habit.pure _
  | tuple => exact habit.pure _
  | map => exact habit.rootWith parts

theorem nested (shape : Shape) (depth : Nat) : ∀ value, habit.Has (nested shape depth value) := by
  induction depth with
  | zero => exact fun value => habit.pure value
  | succ depth inductionHypothesis =>
      exact fun value => habit.bind (habit.build shape _) inductionHypothesis

mutual

theorem eval : ∀ (expr : Expr), (expr.entersScope = true → habit.enters) →
    habit.Has (eval expr)
  | .scalar x, _ => habit.pure _
  | .tuple items, entering =>
      habit.bind (evalAll items entering) fun _ => habit.pure _
  | .copiedTuple items, entering =>
      habit.bind (evalAll items entering) fun values =>
        habit.bind (habit.inSession (habit.deepCopyAll values)) fun _ => habit.pure _
  | .list items, entering =>
      habit.bind (evalAll items entering) fun values =>
        habit.bind (habit.inSession (habit.newList values)) fun _ => habit.pure _
  | .map scope bindings, entering => by
      rw [Expr.entersScope, Bool.or_eq_true] at entering
      refine habit.bind (habit.evalScope fun enters => entering (.inl enters)) fun a => ?_
      exact habit.bind (evalBindings a bindings fun enters => entering (.inr enters)) fun _ =>
        habit.pure _
  | .copy name, _ =>
      habit.bind (habit.valueOf name) fun value => habit.inSession (habit.copy value)
  | .deepCopy name, _ =>
      habit.bind (habit.valueOf name) fun value => habit.inSession (habit.deepCopy value)
  | .take name, _ =>
      habit.bind (habit.valueOf name) fun value =>
        habit.bind (habit.unbinds name) fun _ => habit.pure value
  | .nest shape depth inner, entering =>
      habit.bind (eval inner entering) fun value => habit.nested shape depth value
  | .range shape count, _ => habit.build shape _
termination_by structural expr => expr

theorem evalAll : ∀ (items : List Expr), (Expr.anyEntersScope items = true → habit.enters) →
    habit.Has (evalAll items)
  | [], _ => habit.pure _
  | item :: rest, entering => by
      rw [Expr.anyEntersScope, Bool.or_eq_true] at entering
      refine habit.bind (eval item fun enters => entering (.inl enters)) fun value => ?_
      exact habit.bind (evalAll rest fun enters => entering (.inr enters)) fun _ => habit.pure _
termination_by structural items => items

theorem evalBindings (a : Addr) : ∀ (bindings : List (String × Expr)),
    (Expr.bindingsEnterScope bindings = true → habit.enters) →
      habit.Has (evalBindings a bindings)
  | [], _ => habit.pure _
  | binding :: rest, entering => by
      rw [Expr.bindingsEnterScope, Bool.or_eq_true] at entering
      refine habit.bind (evalBinding a binding fun enters => entering (.inl enters)) fun _ => ?_
      exact evalBindings a rest fun enters => entering (.inr enters)
termination_by structural bindings => bindings

theorem evalBinding (a : Addr) : ∀ (binding : String × Expr),
    (Expr.bindingEntersScope binding = true → habit.enters) → habit.Has (evalBinding a binding)
  | (key, expr), entering =>
      habit.bind (eval expr entering) fun value => habit.insertBinding a key value
termination_by structural binding => binding

end

theorem settle {x : Operand} (entering : x.entersScope = true → habit.enters) :
    habit.Has (settle x) := by
  cases x with
  | inPlace name => exact habit.pure _
  | fresh expr => exact habit.bind (habit.eval expr entering) fun _ => habit.pure _

theorem locate (settled : Settled) : habit.Has settled.locate := by
  cases settled with
  | pending name => exact habit.valueOf name
  | ready value => exact habit.pure value

theorem operand {x : Operand} (entering : x.entersScope = true → habit.enters) :
    habit.Has (operand x) :=
  habit.bind (habit.settle entering) habit.locate

theorem operands {x y : Operand}
    (entering : (x.entersScope || y.entersScope) = true → habit.enters) :
    habit.Has (operands x y) := by
  rw [Bool.or_eq_true] at entering
  refine habit.bind (habit.settle fun enters => entering (.inl enters)) fun left => ?_
  refine habit.bind (habit.settle fun enters => entering (.inr enters)) fun right => ?_
  exact habit.bind (habit.locate left) fun first =>
    habit.bind (habit.locate right) fun second => habit.pure _

end Expressions

/-! ## Places -/

section Places

open Place

variable {ρ : Type} {work : PlaceM ρ}

theorem here : habit.Has here :=
  habit.look (fun _ => rfl) fun _ => habit.pure _

theorem hereAs {κ : Type} (kind : Value → Option κ) : habit.Has (hereAs kind) := by
  refine habit.bind habit.here fun value => ?_
  cases kind value with
  | none => exact habit.throw (by simp [Setting.conflict])
  | some content => exact habit.pure content

theorem requireWritable : habit.Has requireWritable := by
  refine habit.look (fun _ => rfl) fun place => ?_
  split
  · exact habit.throw (by simp [Setting.conflict])
  · exact habit.pure _

theorem exchange (changed : Value) : habit.Has (exchange changed) :=
  habit.update _ (fun _ => rfl) fun _ => rfl

theorem visitingCopy (has : habit.Has work) (found : Option Value) :
    habit.Has (visitingCopy found work) := by
  cases found with
  | none => exact habit.throw (by simp [Setting.conflict])
  | some copy => exact habit.visiting has copy true

theorem hop (has : habit.Has work) {next : Hop} (lending : next.isInPlace = true → habit.lends) :
    habit.Has (Place.hop next work) := by
  cases next with
  | item index => exact habit.item (lending rfl) has index
  | entry key => exact habit.entry (lending rfl) has key
  | element position =>
      refine habit.bind (habit.hereAs _) fun items => ?_
      cases items[position]? with
      | none => exact habit.throw (by simp [Setting.conflict])
      | some element => exact habit.visiting has element false
  | get index =>
      refine habit.bind (habit.hereAs _) fun a => ?_
      refine habit.bind (habit.inPlace (habit.onStore fun _ idle =>
        undisturbed_getItem idle a index)) fun copy => ?_
      exact habit.visiting has copy true
  | find key =>
      refine habit.bind (habit.hereAs _) fun a => ?_
      exact habit.bind (habit.inPlace (habit.onStore fun _ idle =>
        undisturbed_find idle a key)) (habit.visitingCopy has)
  | lookup key =>
      exact habit.bind (habit.hereAs _) fun a =>
        habit.bind (habit.inPlace (habit.lookup a key)) (habit.visitingCopy has)

theorem follow (has : habit.Has work) {path : List Hop}
    (lending : path.any Hop.isInPlace = true → habit.lends) :
    habit.Has (Place.follow path work) := by
  induction path with
  | nil => exact has
  | cons next rest inductionHypothesis =>
      rw [List.any_cons, Bool.or_eq_true] at lending
      exact habit.hop (inductionHypothesis fun later => lending (.inr later))
        fun here => lending (.inl here)

end Places

/-! ## Actions -/

section Actions

open Place

theorem copying (quiet : Bool) (value : Value) : habit.Has (do
    let copy ← Place.inContext (Context.onStore (·.copy value))
    Place.inContext (Context.yielding quiet copy) : PlaceM Outcome) :=
  habit.bind (habit.inPlace (habit.copy value)) fun copy =>
    habit.inPlace (habit.yielding quiet copy)

theorem onTuple (quiet : Bool) (action : TupleAction Value) : habit.Has (action.run quiet) := by
  cases action with
  | push value =>
      refine habit.bind habit.requireWritable fun _ => habit.bind (habit.hereAs _) fun items => ?_
      refine habit.bind (habit.inPlace (habit.deepCopy value)) fun copy => ?_
      exact habit.bind (habit.exchange _) fun _ => habit.pure _
  | pop =>
      refine habit.bind habit.requireWritable fun _ => habit.bind (habit.hereAs _) fun items => ?_
      cases items with
      | nil => exact habit.throw (by simp [Setting.conflict])
      | cons first rest =>
          exact habit.bind (habit.exchange _) fun _ => habit.inPlace (habit.yielding quiet first)
  | extent => exact habit.bind (habit.hereAs _) fun _ => habit.pure _
  | get position =>
      refine habit.bind (habit.hereAs _) fun items => ?_
      dsimp only
      cases items[position]? with
      | none => exact habit.pure _
      | some element => exact habit.copying quiet element
  | items =>
      exact habit.bind (habit.hereAs _) fun items =>
        habit.bind (habit.inPlace (habit.shownAll items)) fun _ => habit.pure _
  | copiedItems =>
      refine habit.bind (habit.hereAs _) fun items => ?_
      refine habit.bind (habit.inPlace (habit.deepCopyAll items)) fun copies => ?_
      exact habit.bind (habit.inPlace (habit.shownAll copies)) fun _ => habit.pure _

theorem action (holders : Addr → List String) (quiet : Bool) {action : Action Value}
    (entering : action.entersScope = true → habit.enters) :
    habit.Has (action.run holders quiet) := by
  cases action with
  | read => exact habit.bind habit.here fun value => habit.copying quiet value
  | kind => exact habit.bind habit.here fun _ => habit.pure _
  | truth =>
      exact habit.bind habit.here fun value =>
        habit.bind (habit.inPlace (habit.truth? value)) fun _ => habit.pure _
  | spell =>
      exact habit.bind habit.here fun value =>
        habit.bind (habit.inPlace (habit.spelled value)) fun _ => habit.pure _
  | replace value =>
      refine habit.bind habit.requireWritable fun _ => habit.bind habit.here fun old => ?_
      exact habit.bind (habit.exchange value) fun _ => habit.inPlace (habit.yielding quiet old)
  | onTuple action => exact habit.onTuple quiet action
  | onList action =>
      exact habit.bind (habit.hereAs _) fun a => habit.inPlace (habit.onList quiet a action)
  | onMap action =>
      exact habit.bind (habit.hereAs _) fun a =>
        habit.inPlace (habit.onMap holders quiet a entering)

/-- Work with an action whose value has been evaluated; the action is still the same. -/
theorem giving {β : Type} {next : Action Value → SessionM β} {action : Action Expr}
    (entering : action.given?.any Expr.entersScope = true → habit.enters)
    (rest : ∀ given : Action Value, given.entersScope = action.entersScope →
      habit.Has (next given)) : habit.Has (action.give Session.eval >>= next) := by
  have evaluated : ∀ (expr : Expr) (finish : Value → Action Value),
      (expr.entersScope = true → habit.enters) →
        (∀ value, (finish value).entersScope = action.entersScope) →
          habit.Has (Session.eval expr >>= fun value => next (finish value)) :=
    fun expr finish entering same => habit.bind (habit.eval expr entering) fun value =>
      rest (finish value) (same value)
  cases action with
  | replace expr =>
      simp only [Action.give, bind_assoc, pure_bind]
      exact evaluated expr .replace entering fun _ => rfl
  | onTuple action =>
      cases action with
      | push expr =>
          simp only [Action.give, TupleAction.give, bind_assoc, pure_bind]
          exact evaluated expr (fun value => .onTuple (.push value)) entering fun _ => rfl
      | _ => exact rest _ rfl
  | onList action =>
      cases action with
      | set index expr =>
          simp only [Action.give, ListAction.give, bind_assoc, pure_bind]
          exact evaluated expr (fun value => .onList (.set index value)) entering fun _ => rfl
      | push expr =>
          simp only [Action.give, ListAction.give, bind_assoc, pure_bind]
          exact evaluated expr (fun value => .onList (.push value)) entering fun _ => rfl
      | _ => exact rest _ rfl
  | onMap action =>
      cases action with
      | assign key expr =>
          simp only [Action.give, MapAction.give, bind_assoc, pure_bind]
          exact evaluated expr (fun value => .onMap (.assign key value)) entering fun _ => rfl
      | insert key expr =>
          simp only [Action.give, MapAction.give, bind_assoc, pure_bind]
          exact evaluated expr (fun value => .onMap (.insert key value)) entering fun _ => rfl
      | _ => exact rest _ rfl
  | _ => exact rest _ rfl

end Actions

/-! ## Steps -/

section Steps

open Session

theorem keeping (keep : Keep) (outcome : Outcome) : habit.Has (Session.keeping keep outcome) := by
  unfold Session.keeping
  cases keep.name with
  | none => exact habit.pure _
  | some name =>
      cases outcome.yielded with
      | none => exact habit.pure _
      | some value => exact habit.bind (habit.binds name value) fun _ => habit.pure _

theorem yieldingInto (keep : Keep) (found : Option Value) :
    habit.Has (Session.yielding keep found) :=
  habit.bind (habit.inSession (habit.yieldingAny keep.quiet found)) (habit.keeping keep)

theorem descent (inner outer : Value) : habit.Has (Session.descent inner outer) := by
  unfold Session.descent
  split
  · exact habit.bind (habit.ask fun _ idle => calm_descends idle _ _) fun _ => habit.pure _
  · exact habit.pure _

theorem globalOutcome (entering : habit.enters) (key : String) (value : Value) :
    habit.Has (Session.globalOutcome key value) := by
  refine habit.bind (habit.globalScope entering) fun scope => ?_
  refine habit.bind (habit.assign scope key value) fun _ => ?_
  refine habit.bind (habit.lookup scope key) fun found => ?_
  refine habit.bind (habit.mapOption habit.shown) fun shown => ?_
  refine habit.bind (habit.bindings scope) fun table => ?_
  refine habit.bind habit.defaultGlobalScope fun enclosing => ?_
  refine habit.bind (habit.ask fun _ idle => calm_descends idle scope enclosing) fun inside => ?_
  exact habit.bind (habit.text (.map scope)) fun _ => habit.pure _

theorem scopeDataAnswer (parent : Option Addr) : habit.Has (Session.scopeDataAnswer parent) := by
  cases parent with
  | none => exact habit.pure _
  | some a =>
      have described : habit.Has (scopeText? a) := by
        refine habit.bind (habit.ask fun _ idle => calm_unfold idle (fun _ _ => .ok _) _)
          fun tree => ?_
        cases tree <;> exact habit.pure _
      exact habit.bind (habit.text (.map a)) fun _ => habit.bind described fun _ => habit.pure _

theorem passing (name : String) (count : Option Nat) : habit.Has (Session.passing name count) := by
  refine habit.bind (habit.cursor? name) fun cursor => ?_
  refine habit.bind (habit.inSession (habit.onStore fun store idle => ?_)) fun answer => ?_
  · cases count with
    | none => exact Cursor.undisturbed_pass idle cursor
    | some count => exact Cursor.undisturbed_take idle count cursor
  · obtain ⟨values, after⟩ := answer
    exact habit.bind (habit.setCursor name after) fun _ => habit.inSession (habit.shownAll values)

theorem repeatedly {work : SessionM Answer} (has : habit.Has work) (count : Nat) :
    habit.Has (Session.repeatedly work count) := by
  induction count with
  | zero => exact habit.pure _
  | succ count inductionHypothesis =>
      refine habit.bind has fun answer => ?_
      split
      · exact habit.pure _
      · exact inductionHypothesis

mutual

theorem perform : ∀ (step : Step), (step.worksInPlace = true → habit.lends) →
    (step.entersScope = true → habit.enters) → habit.Has (Session.perform step)
  | .store name expr, _, entering =>
      habit.bind (habit.eval expr entering) fun value =>
        habit.bind (habit.inSession (habit.shown value)) fun _ =>
          habit.bind (habit.binds name value) fun _ => habit.pure _
  | .drop name, _, _ =>
      habit.look (fun _ => rfl) fun session =>
        habit.bind (habit.unbinds name) fun _ => habit.pure _
  | .look value, _, entering =>
      habit.bind (habit.operand entering) fun value =>
        habit.bind (habit.inSession (habit.shown value)) fun _ => habit.pure _
  | .profile value, _, entering =>
      habit.bind (habit.operand entering) fun value =>
        habit.bind (habit.inSession (habit.profile value)) fun _ => habit.pure _
  | .inspect value, _, entering =>
      habit.bind (habit.operand entering) fun value =>
        habit.bind (habit.inSession (habit.ask fun _ idle => calm_inspect? idle value)) fun _ =>
          habit.pure _
  | .compare left right, _, entering =>
      habit.bind (habit.operands entering) fun pair =>
        habit.bind (habit.inSession (habit.compare pair.1 pair.2)) fun _ => habit.pure _
  | .identical left right, _, entering =>
      habit.bind (habit.operands entering) fun _ => habit.pure _
  | .descends inner outer, _, entering =>
      habit.bind (habit.operands entering) fun pair =>
        habit.inSession (habit.descent pair.1 pair.2)
  | .scope scope keep, _, entering =>
      habit.bind (habit.evalScope entering) fun a => habit.yieldingInto keep (some (.map a))
  | .globalScope key expr keep, _, entering => by
      have enters : habit.enters := entering rfl
      exact habit.bind (habit.eval expr fun _ => enters) fun value =>
        habit.bind (habit.inSession (habit.globalOutcome enters key value)) (habit.keeping keep)
  | .scopeData parent, _, _ =>
      habit.bind (habit.mapOption habit.scopeOf) fun parent =>
        habit.inSession (habit.scopeDataAnswer parent)
  | .toList value keep, _, entering =>
      habit.bind (habit.operand entering) fun value =>
        habit.bind (habit.inSession (habit.listOfTuple value)) fun a =>
          habit.yieldingInto keep (some (.list a))
  | .cursorOver cursor value, _, entering => by
      refine habit.bind (habit.operand entering) fun value => ?_
      cases Cursor.over? value with
      | none => exact habit.pure _
      | some fresh => exact habit.bind (habit.setCursor cursor fresh) fun _ => habit.pure _
  | .cursorNext cursor keep, _, _ => by
      refine habit.bind (habit.cursor? cursor) fun current => ?_
      refine habit.bind (habit.inSession (habit.onStore fun _ idle =>
        Cursor.undisturbed_next idle current)) fun answer => ?_
      obtain ⟨found, after⟩ := answer
      exact habit.bind (habit.setCursor cursor after) fun _ => habit.yieldingInto keep found
  | .cursorReset cursor, _, _ =>
      habit.bind (habit.cursor? cursor) fun current =>
        habit.bind (habit.setCursor cursor current.reset) fun _ => habit.pure _
  | .cursorPass cursor count, _, _ => habit.passing cursor count
  | .idle, _, _ => habit.pure _
  | .loop count steps, lending, entering =>
      habit.repeatedly (performAll steps lending entering) count
  | .act name path action keep, lending, entering => by
      rw [Step.entersScope, Bool.or_eq_true] at entering
      refine habit.giving (fun enters => entering (.inl enters)) fun given same => ?_
      refine habit.look (fun _ => rfl) fun session => ?_
      have acts := habit.action (holders session.named) keep.quiet fun enters =>
        entering (.inr (same.symm.trans enters))
      exact habit.bind (habit.atPath (habit.follow acts lending)) (habit.keeping keep)
termination_by structural step => step

theorem performAll : ∀ (steps : List Step), (Step.anyWorksInPlace steps = true → habit.lends) →
    (Step.anyEntersScope steps = true → habit.enters) → habit.Has (Session.performAll steps)
  | [], _, _ => habit.pure _
  | step :: rest, lending, entering => by
      rw [Step.anyWorksInPlace, Bool.or_eq_true] at lending
      rw [Step.anyEntersScope, Bool.or_eq_true] at entering
      refine habit.bind (perform step (fun lends => lending (.inl lends))
        fun enters => entering (.inl enters)) fun answer => ?_
      split
      · exact habit.pure _
      · exact performAll rest (fun lends => lending (.inr lends))
          fun enters => entering (.inr enters)
termination_by structural steps => steps

end

end Steps

end Habit

end ScopedValues
