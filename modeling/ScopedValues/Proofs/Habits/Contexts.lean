import ScopedValues.Proofs.Habits.Basic

/-!
Contract: work in contexts that has every habit.

Owns the habits of the default scopes, of making and writing scopes and lists, of rendering
values, and of the actions on lists and maps.

Main statement: work in a context that enters no scope has every habit, and so has work that
does if the habit extends to that.
-/

set_option autoImplicit false

namespace ScopedValues

open Store

/-- Whether the action enters a scope. -/
def MapAction.entersScope {ε : Type} : MapAction ε → Bool
  | .child => true
  | _ => false

namespace Habit

variable (habit : Habit)

section Contexts

open Context

theorem allocating {work : Store → Addr × Store}
    (idle : ∀ store : Store, (work store).2.lent = store.lent) :
    habit.Has (Context.allocating work) :=
  habit.onStore fun store free => .ok (work store).2 ((idle store).trans free) (work store).1

/-! ## Scopes and lists -/

theorem newRoot : habit.Has (Context.allocating Store.newRoot) :=
  habit.allocating fun _ => rfl

theorem newChild (parent : Addr) : habit.Has (Context.allocating (·.newChild parent)) :=
  habit.allocating fun _ => rfl

theorem newList (items : List Value) : habit.Has (Context.allocating (·.newList items)) :=
  habit.allocating fun _ => rfl

theorem newScope : habit.Has Context.newScope :=
  habit.bind habit.baseScope habit.newChild

theorem globalScope (entering : habit.enters) : habit.Has Context.globalScope :=
  habit.bind habit.defaultGlobalScope (habit.child entering)

theorem assign (a : Addr) (key : String) (value : Value) :
    habit.Has (Context.assign a key value) := by
  have changed : habit.Has (Context.change (·.assign a key value)) :=
    habit.change fun _ idle => undisturbed_assign idle a key value
  refine habit.bind (habit.ask fun _ idle => calm_owner? idle a key) fun owner => ?_
  cases owner with
  | none => exact habit.bind (habit.record rfl) fun _ => changed
  | some owner => exact changed

theorem listOfTuple (value : Value) : habit.Has (Context.listOfTuple value) := by
  have made : ∀ value : Value, habit.Has (Context.onStore (·.listOfTuple value)) :=
    fun value => habit.onStore fun _ idle => undisturbed_listOfTuple idle value
  cases value with
  | tuple items => exact made _
  | _ => exact habit.bind (habit.record rfl) fun _ => made _

theorem copy (value : Value) : habit.Has (Context.onStore (·.copy value)) :=
  habit.onStore fun _ idle => undisturbed_copy idle value

theorem deepCopy (value : Value) : habit.Has (Context.onStore (·.deepCopy value)) :=
  habit.onStore fun _ idle => undisturbed_deepCopy idle value

theorem deepCopyAll (values : List Value) : habit.Has (Context.onStore (·.deepCopyAll values)) :=
  habit.onStore fun _ idle => undisturbed_deepCopyAll idle values

theorem detach (a : Addr) : habit.Has (Context.onStore (·.detach a)) :=
  habit.onStore fun _ idle => undisturbed_detach idle a

theorem lookup (a : Addr) (key : String) : habit.Has (Context.onStore (·.lookup a key)) :=
  habit.onStore fun _ idle => undisturbed_lookup idle a key

theorem insert (a : Addr) (key : String) (value : Value) :
    habit.Has (Context.onStore (·.insert a key value)) :=
  habit.onStore fun _ idle => undisturbed_insert idle a key value

theorem items (a : Addr) : habit.Has (Context.ask (·.readList a)) :=
  habit.ask fun _ idle => calm_readList idle a

theorem bindings (a : Addr) : habit.Has (Context.ask (·.bindings a)) :=
  habit.ask fun _ idle => calm_bindings idle a

/-! ## Rendering -/

theorem text (value : Value) : habit.Has (Context.ask (·.text value)) :=
  habit.ask fun _ idle => calm_text idle value

theorem equal (x y : Value) : habit.Has (Context.ask (·.equal x y)) :=
  habit.ask fun _ idle => calm_equal idle x y

theorem shown (value : Value) : habit.Has (Context.shown value) :=
  habit.bind (habit.text value) fun _ => habit.pure _

theorem shownAll (values : List Value) : habit.Has (Context.shownAll values) :=
  habit.bind (habit.mapM fun value _ => habit.shown value) fun _ => habit.pure _

theorem spelled (value : Value) : habit.Has (Context.spelled value) :=
  habit.ask fun _ idle => calm_unfold idle (fun a _ => calm_depth idle a) value

theorem truth? (value : Value) : habit.Has (Context.truth? value) := by
  cases value with
  | list a => exact habit.bind (habit.items a) fun _ => habit.pure _
  | _ => exact habit.pure _

theorem compare (x y : Value) : habit.Has (Context.compare x y) :=
  habit.bind (habit.equal x y) fun _ => habit.bind (habit.equal y x) fun _ => habit.pure _

theorem first? (value : Value) : habit.Has (Context.first? value) := by
  unfold Context.first?
  cases Cursor.over? value with
  | none => exact habit.pure none
  | some cursor =>
      refine habit.bind (habit.onStore fun _ idle => Cursor.undisturbed_next idle cursor)
        fun answer => ?_
      obtain ⟨found, moved⟩ := answer
      cases found with
      | none => exact habit.pure none
      | some element => exact habit.bind (habit.shown element) fun _ => habit.pure _

/-- The part of a profile that looks at copies of the value. -/
theorem compared (value : Value) {α : Type} (finish : Option Shown → Bool → Bool → Bool → α) :
    habit.Has (do
      let first ← Context.first? value
      let equalsItself ← Context.ask (·.equal value value)
      let copy ← Context.onStore (·.copy value)
      let equalsCopy ← Context.ask (·.equal copy value)
      let deepCopy ← Context.onStore (·.deepCopy value)
      let equalsDeepCopy ← Context.ask (·.equal deepCopy value)
      return finish first equalsItself equalsCopy equalsDeepCopy : ContextM α) := by
  refine habit.bind (habit.first? value) fun first => ?_
  refine habit.bind (habit.equal value value) fun equalsItself => ?_
  refine habit.bind (habit.copy value) fun copy => ?_
  refine habit.bind (habit.equal copy value) fun equalsCopy => ?_
  refine habit.bind (habit.deepCopy value) fun deepCopy => ?_
  exact habit.bind (habit.equal deepCopy value) fun equalsDeepCopy => habit.pure _

theorem profile (value : Value) : habit.Has (Context.profile value) := by
  refine habit.bind (habit.text value) fun text => habit.bind (habit.truth? value) fun truth => ?_
  cases value with
  | scalar x =>
      simp only [pure_bind]
      exact habit.compared _ _
  | tuple items =>
      simp only [pure_bind]
      exact habit.compared _ _
  | list a =>
      simp only [pure_bind]
      exact habit.bind (habit.items a) fun items => habit.compared _ _
  | map a =>
      simp only [pure_bind]
      exact habit.bind (habit.bindings a) fun table => habit.compared _ _

/-! ## Actions on lists and maps -/

theorem yielding (quiet : Bool) (value : Value) : habit.Has (Context.yielding quiet value) := by
  unfold Context.yielding
  split
  · exact habit.pure _
  · exact habit.bind (habit.shown value) fun _ => habit.pure _

theorem yieldingAny (quiet : Bool) (found : Option Value) :
    habit.Has (Context.yieldingAny quiet found) := by
  cases found with
  | none => exact habit.pure _
  | some value => exact habit.yielding quiet value

/-- Work on storage whose answer is then yielded. -/
theorem stored (quiet : Bool) {work : Store → Except Fault (Value × Store)}
    (undisturbed : ∀ store : Store, store.lent = [] → Undisturbed (work store)) :
    habit.Has (do Context.yielding quiet (← Context.onStore work)) :=
  habit.bind (habit.onStore undisturbed) (habit.yielding quiet)

theorem storedAny (quiet : Bool) {work : Store → Except Fault (Option Value × Store)}
    (undisturbed : ∀ store : Store, store.lent = [] → Undisturbed (work store)) :
    habit.Has (do Context.yieldingAny quiet (← Context.onStore work)) :=
  habit.bind (habit.onStore undisturbed) (habit.yieldingAny quiet)

theorem onList (quiet : Bool) (a : Addr) (action : ListAction Value) :
    habit.Has (action.run quiet a) := by
  cases action with
  | extent => exact habit.bind (habit.items a) fun _ => habit.pure _
  | get index => exact habit.stored quiet fun _ idle => undisturbed_getItem idle a index
  | set index value =>
      exact habit.stored quiet fun _ idle => undisturbed_setItem idle a index value
  | push value =>
      refine habit.bind (habit.change fun _ idle => undisturbed_push idle a value) fun _ => ?_
      exact habit.bind (habit.items a) fun _ => habit.pure _
  | pop index => exact habit.stored quiet fun _ idle => undisturbed_pop idle a index
  | items =>
      exact habit.bind (habit.items a) fun items =>
        habit.bind (habit.shownAll items) fun _ => habit.pure _
  | deepCopy => exact habit.bind (habit.detach a) fun copy => habit.yielding quiet (.list copy)

theorem ownerOutcome (holders : Addr → List String) (a : Addr) (key : String) :
    habit.Has (MapAction.ownerOutcome holders a key) := by
  refine habit.bind (habit.ask fun _ idle => calm_owner? idle a key) fun owner => ?_
  cases owner with
  | none => exact habit.pure _
  | some scope => exact habit.look (fun _ => rfl) fun context => habit.pure _

theorem chainAnswer (holders : Addr → List String) (a : Addr) :
    habit.Has (MapAction.chainAnswer holders a) := by
  refine habit.bind (habit.ask fun _ idle => calm_enclosing idle a) fun chain => ?_
  exact habit.bind (habit.mapM fun scope _ => habit.text (.map scope)) fun _ => habit.pure _

theorem entriesAnswer (a : Addr) : habit.Has (MapAction.entriesAnswer a) := by
  refine habit.bind (habit.bindings a) fun table => ?_
  exact habit.bind (habit.mapM fun entry _ =>
    habit.bind (habit.shown entry.2) fun _ => habit.pure _) fun _ => habit.pure _

theorem onMap (holders : Addr → List String) (quiet : Bool) (a : Addr) {action : MapAction Value}
    (entering : action.entersScope = true → habit.enters) :
    habit.Has (action.run holders quiet a) := by
  cases action with
  | extent => exact habit.bind (habit.bindings a) fun _ => habit.pure _
  | contains key => exact habit.bind (habit.bindings a) fun _ => habit.pure _
  | find key => exact habit.storedAny quiet fun _ idle => undisturbed_find idle a key
  | lookup key => exact habit.storedAny quiet fun _ idle => undisturbed_lookup idle a key
  | erase key => exact habit.storedAny quiet fun _ idle => undisturbed_erase idle a key
  | owner key => exact habit.ownerOutcome holders a key
  | assign key value => exact habit.bind (habit.assign a key value) fun _ => habit.pure _
  | insert key value =>
      exact habit.storedAny quiet fun _ idle => undisturbed_insert idle a key value
  | child => exact habit.bind (habit.child (entering rfl) a) fun made => habit.yielding quiet _
  | deepCopy => exact habit.bind (habit.detach a) fun copy => habit.yielding quiet _
  | parent =>
      exact habit.bind (habit.ask fun _ idle => calm_parent? idle a) fun parent =>
        habit.yieldingAny quiet _
  | chain => exact habit.bind (habit.chainAnswer holders a) fun _ => habit.pure _
  | entries => exact habit.bind (habit.entriesAnswer a) fun _ => habit.pure _

end Contexts

end Habit

end ScopedValues
