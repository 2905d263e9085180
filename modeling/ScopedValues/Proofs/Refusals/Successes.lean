import ScopedValues.Proofs.Refusals.Pruning
import ScopedValues.Proofs.Storage.Additions
import ScopedValues.Proofs.Storage.Sequences

/-!
Contract: what is left of a call, be it refused or not.

Owns storage in which one list has been rewritten, what calls on lists and tuples come to where
they succeed, and the account of all commands that a session can be given.

Main statement: a refused command leaves no trace and can be left out of its program, and a call
on a list or tuple that succeeds changes one sequence, and that one as a plain sequence would be.

Does not own which position an index names.
-/

set_option autoImplicit false

namespace ScopedValues

open Store

/-! ## One list rewritten -/

namespace Store

/-- The list at `a` has the elements `changed` now; everything else is as it was. -/
structure Rewrites (a : Addr) (changed : List Value) (before after : Store) : Prop where
  payload : after.payloads[a]? = some (.list changed)
  others : ∀ b, b ≠ a → after.payloads[b]? = before.payloads[b]?
  lent : after.lent = before.lent

variable {store : Store} {a : Addr} {position : Nat}

theorem rewrites_setItems (present : a < store.size) (changed : List Value) :
    Rewrites a changed store (store.setItems a changed) where
  payload := payload_setItems_self store a changed present
  others b different := payload_setItems_of_ne store a b changed different
  lent := rfl

/-- Only what is there has elements. -/
theorem lt_size_of_lt_length (within : position < (store.items a).length) : a < store.size := by
  by_contra absent
  have missing : store.payloads[a]? = none :=
    Array.getElem?_eq_none_iff.mpr (Nat.le_of_not_lt absent)
  simp only [items, missing] at within
  cases within

theorem getElem?_eq_some_getD {items : List Value} (within : position < items.length) :
    items[position]? = some (items.getD position Value.none) := by
  rw [List.getD_eq_getElem?_getD, List.getElem?_eq_getElem within]
  rfl

end Store

/-! ## Work in contexts -/

namespace Context

variable {α β : Type} {context after : Context}

theorem ask_eq_ok {question : Store → Except Fault α} {x : α}
    (done : ask question context = (.ok x, after)) :
    question context.store = .ok x ∧ after = context := by
  rw [ask_eq] at done
  obtain ⟨answered, rfl⟩ := Prod.mk.inj done
  exact ⟨answered, rfl⟩

theorem of_onStore {work : Store → Except Fault (α × Store)} {x : α}
    (done : onStore work context = (.ok x, after)) :
    ∃ store, work context.store = .ok (x, store) ∧ after = { context with store } := by
  obtain ⟨⟨y, store⟩, later, asked, rest⟩ := Discipline.bind_eq_ok done
  obtain ⟨worked, same⟩ := ask_eq_ok asked
  cases rest
  rw [same]
  exact ⟨store, worked, rfl⟩

theorem of_change {work : Store → Except Fault Store}
    (done : change work context = (.ok (), after)) :
    ∃ store, work context.store = .ok store ∧ after = { context with store } := by
  obtain ⟨store, later, asked, rest⟩ := Discipline.bind_eq_ok done
  obtain ⟨worked, same⟩ := ask_eq_ok asked
  cases rest
  rw [same]
  exact ⟨store, worked, rfl⟩

/-- Work that adds to storage and changes nothing else, whenever it succeeds. -/
def Adds (work : ContextM α) : Prop :=
  ∀ before x after, work before = (.ok x, after) →
    ∃ store, before.store.Extends store ∧ after = { before with store }

namespace Adds

theorem of_still {work : ContextM α} (still : Still work) : Adds work := by
  intro before x after done
  have same := still before
  rw [done] at same
  exact ⟨before.store, .refl _, same⟩

theorem bind {work : ContextM α} {next : α → ContextM β} (first : Adds work)
    (rest : ∀ x, Adds (next x)) : Adds (work >>= next) := by
  intro before y after done
  obtain ⟨x, later, worked, done⟩ := Discipline.bind_eq_ok done
  obtain ⟨middle, extension, rfl⟩ := first before x later worked
  obtain ⟨store, further, rfl⟩ := rest x _ y after done
  exact ⟨store, extension.trans further, rfl⟩

theorem onStore {work : Store → Except Fault (α × Store)}
    (adds : ∀ store : Store, store.Adds (work store)) : Adds (Context.onStore work) := by
  intro before x after done
  obtain ⟨store, worked, rfl⟩ := of_onStore done
  exact ⟨store, adds before.store x store worked, rfl⟩

end Adds

end Context

namespace Place

variable {α β : Type}

/-- Work at a place that adds to storage and changes nothing else, whenever it succeeds. -/
def Adds (work : PlaceM α) : Prop :=
  ∀ before x after, work before = (.ok x, after) →
    ∃ store, before.context.store.Extends store ∧
      after = { before with context := { before.context with store } }

namespace Adds

theorem of_still {work : PlaceM α} (still : Still work) : Adds work := by
  intro before x after done
  have same := still before
  rw [done] at same
  exact ⟨before.context.store, .refl _, same⟩

theorem bind {work : PlaceM α} {next : α → PlaceM β} (first : Adds work)
    (rest : ∀ x, Adds (next x)) : Adds (work >>= next) := by
  intro before y after done
  obtain ⟨x, later, worked, done⟩ := Discipline.bind_eq_ok done
  obtain ⟨middle, extension, rfl⟩ := first before x later worked
  obtain ⟨store, further, rfl⟩ := rest x _ y after done
  exact ⟨store, extension.trans further, rfl⟩

theorem inContext {work : ContextM α} (adds : Context.Adds work) : Adds (inContext work) := by
  intro before x after done
  rw [inContext_eq] at done
  obtain ⟨told, rfl⟩ := Prod.mk.inj done
  obtain ⟨store, extension, same⟩ :=
    adds before.context x _ (Prod.ext (Discipline.eq_ok_of_mapError told) rfl)
  exact ⟨store, extension, congrArg (fun context => { before with context }) same⟩

end Adds

end Place

/-! ## Lists -/

/-- Whether the action is one that changes the list. -/
def ListAction.writes {ε : Type} : ListAction ε → Bool
  | .set _ _ => true
  | .push _ => true
  | .pop _ => true
  | _ => false

namespace ListAction

variable {context after : Context} {a : Addr} {outcome : Outcome}

theorem adds_run {action : ListAction Value} (reads : action.writes = false) (a : Addr) :
    Context.Adds (action.run true a) := by
  cases action with
  | extent => exact .of_still ((Still.ask _).bind fun _ => .pure _)
  | get index =>
      exact (Context.Adds.onStore fun store => store.adds_getItem a index).bind
        fun _ => .of_still (.pure _)
  | items =>
      exact .of_still ((Still.ask _).bind fun items =>
        (still_shownAll items).bind fun _ => .pure _)
  | deepCopy =>
      exact (Context.Adds.onStore fun store => store.adds_detach a).bind
        fun _ => .of_still (.pure _)
  | _ => cases reads

theorem of_set {index : Index} {value : Value}
    (done : (set index value).run true a context = (.ok outcome, after)) :
    ∃ (position : Nat) (old : Value),
      index.resolve (context.store.items a).length = .ok position ∧
      (context.store.items a)[position]? = some old ∧ outcome.yielded = some old ∧
      context.store.Rewrites a ((context.store.items a).set position value) after.store ∧
      after = { context with store := after.store } := by
  obtain ⟨old, later, stored, done⟩ := Discipline.bind_eq_ok done
  obtain ⟨store, worked, rfl⟩ := Context.of_onStore stored
  cases done
  obtain ⟨position, resolved, rfl, rfl⟩ := setItem_eq_ok worked
  have within := Index.resolve_lt resolved
  exact ⟨position, _, resolved, getElem?_eq_some_getD within, rfl,
    rewrites_setItems (lt_size_of_lt_length within) _, rfl⟩

theorem of_pop {index : Option Index}
    (done : (pop index).run true a context = (.ok outcome, after)) :
    ∃ (position : Nat) (removed : Value),
      Index.resolveRemoval index (context.store.items a).length = .ok position ∧
      (context.store.items a)[position]? = some removed ∧ outcome.yielded = some removed ∧
      context.store.Rewrites a ((context.store.items a).eraseIdx position) after.store ∧
      after = { context with store := after.store } := by
  obtain ⟨removed, later, stored, done⟩ := Discipline.bind_eq_ok done
  obtain ⟨store, worked, rfl⟩ := Context.of_onStore stored
  cases done
  obtain ⟨position, resolved, rfl, rfl⟩ := pop_eq_ok worked
  have within := Index.resolveRemoval_lt resolved
  exact ⟨position, _, resolved, getElem?_eq_some_getD within, rfl,
    rewrites_setItems (lt_size_of_lt_length within) _, rfl⟩

theorem of_push {value : Value} (isList : context.store.IsList a)
    (done : (push value).run true a context = (.ok outcome, after)) :
    outcome.yielded = none ∧
      context.store.Rewrites a (context.store.items a ++ [value]) after.store ∧
      after = { context with store := after.store } := by
  obtain ⟨_, later, changed, done⟩ := Discipline.bind_eq_ok done
  obtain ⟨store, worked, rfl⟩ := Context.of_change changed
  obtain ⟨items, _, asked, done⟩ := Discipline.bind_eq_ok done
  obtain ⟨_, rfl⟩ := Context.ask_eq_ok asked
  cases done
  obtain ⟨_, rfl⟩ := push_eq_ok worked
  exact ⟨rfl, rewrites_setItems isList.lt_size _, rfl⟩

section Free

variable (free : a ∉ context.store.lent)

include free

theorem set_of_free {index : Index} {position : Nat} (value : Value)
    (resolved : index.resolve (context.store.items a).length = .ok position) :
    ∃ outcome after, (set index value).run true a context = (.ok outcome, after) :=
  ⟨_, _, Discipline.bind_of_ok (Context.onStore_eq_ok (setItem_of_free free resolved))⟩

theorem push_of_free (value : Value) :
    ∃ outcome after, (push value).run true a context = (.ok outcome, after) := by
  have changed := @Context.change_eq_ok context (·.push a value) _ (Store.push_of_free free)
  have stillFree : a ∉ (context.store.setItems a (context.store.items a ++ [value])).lent := free
  have asked := Context.ask_eq (·.readList a) { context with
    store := context.store.setItems a (context.store.items a ++ [value]) }
  rw [readList_of_free stillFree] at asked
  exact ⟨_, _, (Discipline.bind_of_ok changed).trans (Discipline.bind_of_ok asked)⟩

theorem pop_of_free {index : Option Index} {position : Nat}
    (resolved : Index.resolveRemoval index (context.store.items a).length = .ok position) :
    ∃ outcome after, (pop index).run true a context = (.ok outcome, after) :=
  ⟨_, _, Discipline.bind_of_ok (Context.onStore_eq_ok (Store.pop_of_free free resolved))⟩

end Free

end ListAction

/-! ## Tuples -/

namespace TupleAction

variable {context : Context} {items : List Value} {outcome : Outcome} {after : Place}

theorem adds_run {action : TupleAction Value} (reads : action.needsPlace = false) :
    Place.Adds (action.run true) := by
  cases action with
  | extent => exact .of_still ((still_hereAs _).bind fun _ => .pure _)
  | get position =>
      refine (Place.Adds.of_still (still_hereAs _)).bind fun items => ?_
      dsimp only
      cases items[position]? with
      | none => exact .of_still (.pure _)
      | some element =>
          refine (Place.Adds.inContext (.onStore fun store => store.adds_copy element)).bind
            fun copy => ?_
          exact .inContext (.of_still (.pure _))
  | items =>
      exact (Place.Adds.of_still (still_hereAs _)).bind fun items =>
        (Place.Adds.inContext (.of_still (still_shownAll items))).bind fun _ => .of_still (.pure _)
  | copiedItems =>
      refine (Place.Adds.of_still (still_hereAs _)).bind fun items => ?_
      refine (Place.Adds.inContext (.onStore fun store => store.adds_deepCopyAll items)).bind
        fun copies => ?_
      exact (Place.Adds.inContext (.of_still (still_shownAll copies))).bind
        fun _ => .of_still (.pure _)
  | _ => cases reads

theorem of_pop
    (done : pop.run true { value := .tuple items, writable := true, context } =
      (.ok outcome, after)) :
    ∃ first rest, items = first :: rest ∧ outcome.yielded = some first ∧
      after = { value := .tuple rest, writable := true, context } := by
  cases items with
  | nil => cases done
  | cons first rest =>
      cases done
      exact ⟨first, rest, rfl, rfl, rfl⟩

theorem of_push {value : Value}
    (done : (push value).run true { value := .tuple items, writable := true, context } =
      (.ok outcome, after)) :
    ∃ copy store, context.store.deepCopy value = .ok (copy, store) ∧ outcome.yielded = none ∧
      after = {
        value := .tuple (items ++ [copy])
        writable := true
        context := { context with store } } := by
  have copied : (do
      let copy ← Place.inContext (Context.onStore (·.deepCopy value))
      Place.exchange (.tuple (items ++ [copy]))
      return { answer := .count (items.length + 1) } : PlaceM Outcome)
        { value := .tuple items, writable := true, context } = (.ok outcome, after) := done
  obtain ⟨copy, later, made, rest⟩ := Discipline.bind_eq_ok copied
  rw [Place.inContext_eq] at made
  obtain ⟨told, rfl⟩ := Prod.mk.inj made
  obtain ⟨store, worked, same⟩ :=
    Context.of_onStore (Prod.ext (Discipline.eq_ok_of_mapError told) rfl)
  cases rest
  exact ⟨copy, store, worked, rfl, congrArg (fun context : Context => ({
    value := .tuple (items ++ [copy])
    writable := true
    context } : Place)) same⟩

end TupleAction

/-! ## Calls that succeed -/

namespace Session

/-- The variables once a value that was yielded has been moved into one of them. -/
def moved (keep : Option String) (yielded : Option Value) (named : Table Value) : Table Value :=
  match keep, yielded with
  | some name, some value => named.insert name value
  | _, _ => named

@[simp] theorem moved_none (keep : Option String) (named : Table Value) :
    moved keep none named = named := by
  cases keep <;> rfl

/-- But for the storage, all that has changed is the variable that a value was moved into. -/
def OnlyMoved (before : Session) (keep : Option String) (yielded : Option Value)
    (after : Session) : Prop :=
  after = { before with
    context := { before.context with store := after.context.store }
    named := moved keep yielded before.named }

/-- One list has been rewritten, and the yielded value has been moved; nothing else has changed. -/
structure Rewrote (before : Session) (a : Addr) (changed : List Value) (keep : Option String)
    (yielded : Option Value) (after : Session) : Prop where
  list : before.context.store.Rewrites a changed after.context.store
  rest : before.OnlyMoved keep yielded after

/-- Storage may have been added, and the yielded value has been moved; nothing else has changed. -/
structure Added (before : Session) (keep : Option String) (yielded : Option Value)
    (after : Session) : Prop where
  storage : before.context.store.Extends after.context.store
  rest : before.OnlyMoved keep yielded after

variable {session after : Session} {keep : Option String} {outcome : Outcome}

theorem onlyMoved_of_context {context : Context} (keep : Option String) (yielded : Option Value)
    (only : context = { session.context with store := context.store }) :
    session.OnlyMoved keep yielded { session with
      context
      named := moved keep yielded session.named } :=
  congrArg (fun context : Context => ({ session with
    context
    named := moved keep yielded session.named } : Session)) only

theorem moving_of_ok {work : SessionM Outcome} {later : Session}
    (done : work session = (.ok outcome, later)) (keep : Option String) :
    moving keep work session =
      (.ok outcome, { later with named := moved keep outcome.yielded later.named }) := by
  refine (Discipline.bind_of_ok done).trans ?_
  obtain ⟨answer, yielded⟩ := outcome
  cases keep <;> cases yielded <;> rfl

theorem of_moving {work : SessionM Outcome}
    (done : moving keep work session = (.ok outcome, after)) :
    ∃ later, work session = (.ok outcome, later) ∧
      after = { later with named := moved keep outcome.yielded later.named } := by
  obtain ⟨told, later, worked, _⟩ := Discipline.bind_eq_ok done
  obtain ⟨same, rfl⟩ := Prod.mk.inj ((moving_of_ok worked keep).symm.trans done)
  obtain rfl := Except.ok.inj same
  exact ⟨later, worked, rfl⟩

end Session

namespace Call

open Session

def Succeeds (call : Call) (session : Session) : Prop :=
  ∃ outcome after, call.run session = (.ok outcome, after)

variable {session after : Session} {name : String} {keep : Option String} {outcome : Outcome}

theorem run_act (name : String) (action : Action Value) (apart : action.entersScope = false)
    (keep : Option String) (session : Session) :
    (act name action apart keep).run session =
      moving keep (atPath name [] (action.run (holders session.named) true)) session :=
  Discipline.bind_get (fun session : Session =>
    moving keep (atPath name [] (action.run (holders session.named) true))) session

theorem of_act {action : Action Value} {apart : action.entersScope = false} {handle : Value}
    (bound : session.named.get? name = some handle)
    (done : (act name action apart keep).run session = (.ok outcome, after)) :
    ∃ place, action.run (holders session.named) true
        { value := handle, writable := true, context := session.context } = (.ok outcome, place) ∧
      after = { session with
        context := place.context
        named := moved keep outcome.yielded (session.named.insert name place.value) } := by
  obtain ⟨later, acted, rfl⟩ := of_moving done
  have reads := atPath_of_bound bound [] (action.run (holders session.named) true)
  have there := reads.symm.trans acted
  obtain ⟨told, rfl⟩ := Prod.mk.inj there
  exact ⟨_, Prod.ext told rfl, rfl⟩

theorem succeeds_of_act {action : Action Value} {apart : action.entersScope = false}
    {handle : Value} {place : Place} (bound : session.named.get? name = some handle)
    (acted : Place.follow [] (action.run (holders session.named) true)
      { value := handle, writable := true, context := session.context } = (.ok outcome, place))
    (keep : Option String) : (act name action apart keep).Succeeds session := by
  have there := atPath_of_bound bound [] (action.run (holders session.named) true)
  rw [acted] at there
  rw [Succeeds, run_act]
  exact ⟨outcome, _, moving_of_ok there keep⟩

theorem succeeds_of_onList {action : ListAction Value} {a : Addr} {context : Context}
    (bound : session.named.get? name = some (.list a))
    (acted : action.run true a session.context = (.ok outcome, context)) (keep : Option String) :
    (act name (.onList action) rfl keep).Succeeds session := by
  have there := Place.inContext_eq (action.run true a)
    { value := .list a, writable := true, context := session.context }
  rw [acted] at there
  exact @succeeds_of_act session name outcome (.onList action) rfl _ _ bound there keep

/-- A call on a list comes to its action in the context of the session. -/
theorem of_onList {action : ListAction Value} {a : Addr}
    (bound : session.named.get? name = some (.list a))
    (done : (act name (.onList action) rfl keep).run session = (.ok outcome, after)) :
    ∃ context, action.run true a session.context = (.ok outcome, context) ∧
      after = { session with
        context
        named := moved keep outcome.yielded session.named } := by
  obtain ⟨place, acted, rfl⟩ := of_act bound done
  have there : Place.inContext (action.run true a)
      { value := .list a, writable := true, context := session.context } = (.ok outcome, place) :=
    acted
  rw [Place.inContext_eq] at there
  obtain ⟨told, rfl⟩ := Prod.mk.inj there
  refine ⟨_, Prod.ext (Discipline.eq_ok_of_mapError told) rfl, ?_⟩
  simp only [Table.insert_of_get? bound]

theorem of_toList {value : Value}
    (done : (toList value keep).run session = (.ok outcome, after)) :
    (∃ items, value = .tuple items) ∧ session.Added keep outcome.yielded after := by
  obtain ⟨later, worked, rfl⟩ := of_moving done
  obtain ⟨a, last, made, rest⟩ := Discipline.bind_eq_ok worked
  cases rest
  rw [inContext_eq] at made
  obtain ⟨told, rfl⟩ := Prod.mk.inj made
  have listed := Discipline.eq_ok_of_mapError told
  by_cases other : ∀ items, value ≠ .tuple items
  · rw [Context.listOfTuple_rejected other] at listed
    cases listed
  · obtain ⟨items, rfl⟩ := not_forall_not.mp other
    obtain ⟨store, stored, same⟩ := Context.of_onStore (Prod.ext listed rfl)
    have extension := adds_listOfTuple _ (.tuple items) a store stored
    have same : (Context.listOfTuple (.tuple items) session.context).2 = _ := same
    rw [same]
    exact ⟨⟨items, rfl⟩, extension, rfl⟩

end Call

namespace Session

variable {ρ : Type} {session after : Session} {name slot : String} {a : Addr} {index : Index}

/-- A change of an element in place does its work with the element in the slot, and puts back what
it finds there. -/
theorem of_within_item {work : StateM Session ρ} {reply : ρ}
    (bound : session.named.get? name = some (.list a))
    (done : within name (.item index) slot work session = (.ok reply, after)) :
    ∃ (position : Nat) (old : Value),
      index.resolve (session.context.store.items a).length = .ok position ∧
      (session.context.store.items a)[position]? = some old ∧
      reply = (work (session.enter (.item a position slot) old session.context.store)).1 ∧
      after = (work (session.enter (.item a position slot) old session.context.store)).2.leave
        (.item a position slot) := by
  rw [within_of_bound bound] at done
  cases found : session.context.store.item a index with
  | error fault =>
      simp only [Door.find, found] at done
      cases done
  | ok place =>
      obtain ⟨position, old⟩ := place
      simp only [Door.find, found] at done
      obtain ⟨told, rfl⟩ := Prod.mk.inj done
      obtain ⟨_, resolved⟩ := resolve_of_item found
      obtain rfl := item_eq_ok found
      exact ⟨position, _, resolved, getElem?_eq_some_getD (Index.resolve_lt resolved),
        (Except.ok.inj told).symm, rfl⟩

/-- Work that only replaces its slot changes the element that it was given, and nothing else. -/
theorem leave_replaced (fresh : session.named.get? slot = none) {position : Nat}
    (present : a < session.context.store.size) (old changed : Value) :
    let entered := session.enter (.item a position slot) old session.context.store
    let left := ({ entered with named := entered.named.insert slot changed }).leave
      (.item a position slot)
    session.Rewrote a ((session.context.store.items a).set position changed) none none left := by
  intro entered left
  have replaced : ((session.named.insert slot old).insert slot changed).get? slot =
      some changed := Table.get?_insert_self _ _ _
  have back : left.context.store = session.context.store.setItems a
      ((session.context.store.items a).set position changed) := by
    show (Frame.item a position slot).putBack session.context.store
      ((((session.named.insert slot old).insert slot changed).get? slot).getD Value.none) = _
    rw [replaced]
    rfl
  refine ⟨?_, ?_⟩
  · rw [back]
    exact rewrites_setItems present _
  -- The slot was no variable before, so to drop it restores the variables.
  · have gone : ((session.named.insert slot old).insert slot changed).erase slot =
        session.named := by
      rw [Table.insert_insert, Table.erase_insert_of_unbound changed fresh]
    exact congrArg (fun named => ({ session with
      context := { session.context with store := left.context.store }
      named } : Session)) gone

/-! ## The account of all commands -/

/-- What commands come to from a session on: those that are refused leave no trace, and calls on
lists and tuples that succeed change one sequence, as a plain sequence would be changed. -/
structure Accountable (session : Session) : Prop where
  /-- A refusal leaves the session as it was, but for the record of a rejected conversion. -/
  refused (command : Command) (stopped : (command.run session).1.isRefusal = true) :
    session.Unmoved (command.run session).2
  /-- A change in place that is not begun comes to the same whatever its work is. -/
  idle {ρ κ : Type} {name slot : String} {door : Door} {work : StateM Session ρ}
    {failure : Failure} (stopped : (within name door slot work session).1 = .error failure)
    (other : StateM Session κ) : within name door slot other session = (.error failure, session)
  /-- The commands that were refused can be left out; only what has been recorded may differ. -/
  pruned (program : List Command) :
    let replies := (Command.runAll program session).1
    (Command.runAll (Command.prunedOf program replies) session).1 = Reply.acceptedOf replies ∧
      (Command.runAll (Command.prunedOf program replies) session).2.silent =
        (Command.runAll program session).2.silent
  set {name : String} {a : Addr} {index : Index} {value : Value} {keep : Option String}
    {outcome : Outcome} {after : Session} (bound : session.named.get? name = some (.list a))
    (done : (Call.act name (.onList (.set index value)) rfl keep).run session =
      (.ok outcome, after)) :
    ∃ (position : Nat) (old : Value),
      index.resolve (session.context.store.items a).length = .ok position ∧
      (session.context.store.items a)[position]? = some old ∧ outcome.yielded = some old ∧
      session.Rewrote a ((session.context.store.items a).set position value) keep (some old) after
  push {name : String} {a : Addr} {value : Value} {keep : Option String} {outcome : Outcome}
    {after : Session} (bound : session.named.get? name = some (.list a))
    (isList : session.context.store.IsList a)
    (done : (Call.act name (.onList (.push value)) rfl keep).run session = (.ok outcome, after)) :
    session.Rewrote a (session.context.store.items a ++ [value]) none none after
  pop {name : String} {a : Addr} {index : Option Index} {keep : Option String}
    {outcome : Outcome} {after : Session} (bound : session.named.get? name = some (.list a))
    (done : (Call.act name (.onList (.pop index)) rfl keep).run session = (.ok outcome, after)) :
    ∃ (position : Nat) (removed : Value),
      Index.resolveRemoval index (session.context.store.items a).length = .ok position ∧
      (session.context.store.items a)[position]? = some removed ∧
      outcome.yielded = some removed ∧
      session.Rewrote a ((session.context.store.items a).eraseIdx position) keep (some removed)
        after
  /-- A change of an element in place does its work once, with the element in the slot. Work that
  only replaces the slot changes that element. -/
  inPlace {ρ : Type} {name slot : String} {a : Addr} {index : Index} {work : StateM Session ρ}
    {reply : ρ} {after : Session} (bound : session.named.get? name = some (.list a))
    (fresh : session.named.get? slot = none)
    (done : within name (.item index) slot work session = (.ok reply, after)) :
    ∃ (position : Nat) (old : Value),
      index.resolve (session.context.store.items a).length = .ok position ∧
      (session.context.store.items a)[position]? = some old ∧
      let entered := session.enter (.item a position slot) old session.context.store
      reply = (work entered).1 ∧
      ∀ changed, (work entered).2 = { entered with named := entered.named.insert slot changed } →
        session.Rewrote a ((session.context.store.items a).set position changed) none none after
  /-- Every other call on a list leaves all sequences as they were. -/
  readList {name : String} {a : Addr} {action : ListAction Value} {keep : Option String}
    {outcome : Outcome} {after : Session} (bound : session.named.get? name = some (.list a))
    (reads : action.writes = false)
    (done : (Call.act name (.onList action) rfl keep).run session = (.ok outcome, after)) :
    session.Added keep outcome.yielded after
  popFront {name : String} {items : List Value} {keep : Option String} {outcome : Outcome}
    {after : Session} (bound : session.named.get? name = some (.tuple items))
    (done : (Call.act name (.onTuple .pop) rfl keep).run session = (.ok outcome, after)) :
    ∃ first rest, items = first :: rest ∧ outcome.yielded = some first ∧
      after = { session with
        named := moved keep (some first) (session.named.insert name (.tuple rest)) }
  pushBack {name : String} {items : List Value} {value : Value} {keep : Option String}
    {outcome : Outcome} {after : Session}
    (bound : session.named.get? name = some (.tuple items))
    (done : (Call.act name (.onTuple (.push value)) rfl keep).run session =
      (.ok outcome, after)) :
    ∃ copy store, session.context.store.deepCopy value = .ok (copy, store) ∧
      session.context.store.Extends store ∧
      after = { session with
        context := { session.context with store }
        named := session.named.insert name (.tuple (items ++ [copy])) }
  /-- Every other call on a tuple leaves all sequences as they were. -/
  readTuple {name : String} {items : List Value} {action : TupleAction Value}
    {keep : Option String} {outcome : Outcome} {after : Session}
    (bound : session.named.get? name = some (.tuple items)) (reads : action.needsPlace = false)
    (done : (Call.act name (.onTuple action) rfl keep).run session = (.ok outcome, after)) :
    session.Added keep outcome.yielded after
  /-- On a list that is not lent out, appending succeeds, and so does everything else wherever the
  index names a position. -/
  succeeds {name : String} {a : Addr} (bound : session.named.get? name = some (.list a))
    (free : a ∉ session.context.store.lent) (keep : Option String) :
    (∀ value, (Call.act name (.onList (.push value)) rfl keep).Succeeds session) ∧
    (∀ index position,
      Index.resolveRemoval index (session.context.store.items a).length = .ok position →
        (Call.act name (.onList (.pop index)) rfl keep).Succeeds session) ∧
    ∀ index position, index.resolve (session.context.store.items a).length = .ok position →
      (∀ value, (Call.act name (.onList (.set index value)) rfl keep).Succeeds session) ∧
      ∀ {ρ : Type} (slot : String) (work : StateM Session ρ),
        ∃ reply after, within name (.item index) slot work session = (.ok reply, after)
  /-- Making a list of a tuple leaves all sequences as they were. -/
  toList {value : Value} {keep : Option String} {outcome : Outcome} {after : Session}
    (done : (Call.toList value keep).run session = (.ok outcome, after)) :
    (∃ items, value = .tuple items) ∧ session.Added keep outcome.yielded after

/-- From every session on, a refused command leaves no trace and can be left out of its program,
and a call on a list or a tuple that succeeds changes one sequence at most. -/
theorem accountable (session : Session) : session.Accountable where
  refused _ := Command.unmoved_of_refused
  idle stopped other := within_of_error stopped other
  pruned program := Command.prune program session
  set bound done := by
    obtain ⟨context, acted, rfl⟩ := Call.of_onList bound done
    obtain ⟨position, old, resolved, addressed, yielded, list, only⟩ := ListAction.of_set acted
    refine ⟨position, old, resolved, addressed, yielded, list, ?_⟩
    rw [← yielded]
    exact onlyMoved_of_context _ _ only
  push bound isList done := by
    obtain ⟨context, acted, rfl⟩ := Call.of_onList bound done
    obtain ⟨nothing, list, only⟩ := ListAction.of_push isList acted
    refine ⟨list, ?_⟩
    rw [nothing, moved_none]
    exact onlyMoved_of_context none none only
  pop bound done := by
    obtain ⟨context, acted, rfl⟩ := Call.of_onList bound done
    obtain ⟨position, removed, resolved, addressed, yielded, list, only⟩ := ListAction.of_pop acted
    refine ⟨position, removed, resolved, addressed, yielded, list, ?_⟩
    rw [← yielded]
    exact onlyMoved_of_context _ _ only
  inPlace bound fresh done := by
    obtain ⟨position, old, resolved, addressed, told, rfl⟩ := of_within_item bound done
    refine ⟨position, old, resolved, addressed, told, fun changed replaced => ?_⟩
    rw [replaced]
    exact leave_replaced fresh (lt_size_of_lt_length (Index.resolve_lt resolved)) old changed
  readList bound reads done := by
    obtain ⟨context, acted, rfl⟩ := Call.of_onList bound done
    obtain ⟨store, extension, rfl⟩ := ListAction.adds_run reads _ _ _ _ acted
    exact ⟨extension, rfl⟩
  popFront bound done := by
    obtain ⟨place, acted, rfl⟩ := Call.of_act bound done
    obtain ⟨first, rest, same, yielded, rfl⟩ := TupleAction.of_pop acted
    refine ⟨first, rest, same, yielded, ?_⟩
    rw [yielded]
  pushBack bound done := by
    obtain ⟨place, acted, rfl⟩ := Call.of_act bound done
    obtain ⟨copy, store, copied, yielded, rfl⟩ := TupleAction.of_push acted
    refine ⟨copy, store, copied, adds_deepCopy _ _ copy store copied, ?_⟩
    rw [yielded, moved_none]
  readTuple bound reads done := by
    obtain ⟨place, acted, rfl⟩ := Call.of_act bound done
    obtain ⟨store, extension, rfl⟩ := TupleAction.adds_run reads _ _ _ acted
    refine ⟨extension, ?_⟩
    simp only [Table.insert_of_get? bound]
    rfl
  succeeds bound free keep := by
    refine ⟨fun value => ?_, fun index position resolved => ?_, fun index position resolved =>
      ⟨fun value => ?_, fun slot work => ?_⟩⟩
    · obtain ⟨outcome, context, acted⟩ := ListAction.push_of_free free value
      exact Call.succeeds_of_onList bound acted keep
    · obtain ⟨outcome, context, acted⟩ := ListAction.pop_of_free free resolved
      exact Call.succeeds_of_onList bound acted keep
    · obtain ⟨outcome, context, acted⟩ := ListAction.set_of_free free value resolved
      exact Call.succeeds_of_onList bound acted keep
    · rw [within_of_bound bound]
      simp only [Door.find, item_of_free free resolved]
      exact ⟨_, _, rfl⟩
  toList := Call.of_toList

/-- In a list of two elements the second is replaced. Where a position beyond the end is popped and
a conversion is rejected while the first element is changed in place, the change in place is all
that is left of the program. -/
theorem accountable_twoElements :
    let made := Call.toList (.tuple [.str "first", .str "second"]) (some "list")
    let session := (made.run (start true)).2
    let replacing := Call.act "list" (.onList (.set (.whole 1) (.str "third"))) rfl (some "old")
    let popping := Command.call (.act "list" (.onList (.pop (some (.whole 7)))) rfl none)
    let converting := Command.call (.toList (.str "third") none)
    let program := [popping, .within "list" (.item (.whole 0)) "slot" [converting]]
    let kept := [Command.within "list" (.item (.whole 0)) "slot" []]
    (∃ outcome after, replacing.run session = (.ok outcome, after) ∧
      outcome.yielded = some (.str "second") ∧
      after.context.store.payloads[0]? = some (.list [.str "first", .str "third"])) ∧
    ((popping.run session).1.isRefusal = true ∧ session.Unmoved (popping.run session).2) ∧
    Command.prunedOf program (Command.runAll program session).1 = kept ∧
    (Command.runAll kept session).1 = [.done []] ∧
    (Command.runAll kept session).2.silent = (Command.runAll program session).2.silent := by
  intro made session replacing popping converting program kept
  have bound : session.named.get? "list" = some (.list 0) := rfl
  have refused : (popping.run session).1.isRefusal = true := rfl
  have left : Command.prunedOf program (Command.runAll program session).1 = kept := rfl
  obtain ⟨answered, same⟩ := session.accountable.pruned program
  rw [left] at answered same
  refine ⟨?_, ⟨refused, session.accountable.refused popping refused⟩, left, answered, same⟩
  have done : replacing.run session = (.ok _, _) := rfl
  refine ⟨_, _, done, ?_⟩
  obtain ⟨position, old, resolved, addressed, yielded, rewrote⟩ :=
    session.accountable.set bound done
  obtain rfl : 1 = position := Except.ok.inj resolved
  obtain rfl : Value.str "second" = old := Option.some.inj addressed
  exact ⟨yielded, rewrote.list.payload⟩

end Session

end ScopedValues
