import ScopedValues.Proofs.Refusals.Commands

/-!
Contract: what a refusal leaves behind.

Owns work that is never refused, work that leaves no trace when it is refused, and the rules for
putting such work together.

Main statement: a command that is refused leaves the session as it was, but for the record of a
conversion that was rejected, and a change in place that is refused does none of its work.

Does not own what becomes of the rest of a program.
-/

set_option autoImplicit false

namespace ScopedValues

/-! ## Refusals of storage -/

/-- An outcome that is no refusal. -/
abbrev Unrefused {α : Type} (outcome : Except Fault α) : Prop :=
  FailsOnly (·.isRefusal = false) outcome

namespace Store

variable (store : Store)

theorem unrefused_free (a : Addr) : Unrefused (store.free a) := by
  rw [free]
  split
  · exact .error rfl
  · exact .ok ()

theorem unrefused_readList (a : Addr) : Unrefused (store.readList a) :=
  (store.unrefused_free a).bind fun _ _ => .ok _

theorem unrefused_readScope (a : Addr) : Unrefused (store.readScope a) :=
  (store.unrefused_free a).bind fun _ _ => .ok _

theorem unrefused_owner? (a : Addr) (key : String) : Unrefused (store.owner? a key) := by
  have first : ∀ scopes, Unrefused (store.firstBinding key scopes) := by
    intro scopes
    induction scopes with
    | nil => exact .ok none
    | cons scope outer inductionHypothesis =>
        refine (store.unrefused_readScope scope).bind fun found _ => ?_
        split
        · exact .ok (some scope)
        · exact inductionHypothesis
  exact first _

theorem unrefused_assign (a : Addr) (key : String) (value : Value) :
    Unrefused (store.assign a key value) := by
  refine (store.unrefused_owner? a key).bind fun owner _ => ?_
  exact ((store.unrefused_readScope _).bind fun _ _ => .ok _).bind fun _ _ => .ok _

theorem unrefused_text (value : Value) : Unrefused (store.text value) := by
  refine (Value.failsOnly_unfoldBy (fun a _ => ?_) value value.within_anywhere).bind
    fun _ _ => .ok _
  exact failsOnly_followWithin store.unrefused_free rfl (fun _ _ => .ok _) (store.size + 1) a

end Store

/-! ## Work that a refusal leaves no trace of -/

section Work

variable {σ ε α β : Type}

/-- Work that leaves the state as it is. -/
def Still (work : ExceptT ε (StateM σ) α) : Prop :=
  ∀ state, (work state).2 = state

/-- Work that is never refused. -/
def Willing (refusal : ε → Bool) (work : ExceptT ε (StateM σ) α) : Prop :=
  ∀ state failure, (work state).1 = .error failure → refusal failure = false

/-- Work that leaves the state as it was if it is refused. -/
def Traceless (refusal : ε → Bool) (work : ExceptT ε (StateM σ) α) : Prop :=
  ∀ state failure, (work state).1 = .error failure → refusal failure = true →
    (work state).2 = state

variable {refusal : ε → Bool} {work : ExceptT ε (StateM σ) α}
  {next : α → ExceptT ε (StateM σ) β}

namespace Still

theorem pure (x : α) : Still (Pure.pure x : ExceptT ε (StateM σ) α) :=
  fun _ => rfl

theorem throw (failure : ε) : Still (throw failure : ExceptT ε (StateM σ) α) :=
  fun _ => rfl

theorem look {next : σ → ExceptT ε (StateM σ) β} (rest : ∀ state, Still (next state)) :
    Still (get >>= next) :=
  fun state => rest state state

theorem bind (first : Still work) (rest : ∀ x, Still (next x)) : Still (work >>= next) := by
  intro before
  have same := first before
  rcases done : work before with ⟨failure | x, later⟩
  · rw [Discipline.bind_of_error done]
    rw [done] at same
    exact same
  · rw [done] at same
    obtain rfl := same
    rw [Discipline.bind_of_ok done]
    exact rest x later

theorem mapM {work : α → ExceptT ε (StateM σ) β} {items : List α}
    (each : ∀ x ∈ items, Still (work x)) : Still (items.mapM work) :=
  mapM_closed Still Still.pure Still.bind each

end Still

namespace Willing

theorem of_eq (each : ∀ before, ∃ answer after, work before = (answer, after) ∧
    ∀ failure, answer = .error failure → refusal failure = false) : Willing refusal work := by
  intro before failure failed
  obtain ⟨answer, after, done, never⟩ := each before
  rw [done] at failed
  exact never failure failed

theorem pure (x : α) : Willing refusal (Pure.pure x : ExceptT ε (StateM σ) α) :=
  .of_eq fun before => ⟨.ok x, before, rfl, fun _ impossible => nomatch impossible⟩

theorem modify (change : σ → σ) :
    Willing refusal (modify change : ExceptT ε (StateM σ) PUnit) :=
  .of_eq fun before => ⟨.ok ⟨⟩, change before, rfl, fun _ impossible => nomatch impossible⟩

theorem look {next : σ → ExceptT ε (StateM σ) β} (rest : ∀ state, Willing refusal (next state)) :
    Willing refusal (get >>= next) :=
  fun state => rest state state

theorem bind (first : Willing refusal work) (rest : ∀ x, Willing refusal (next x)) :
    Willing refusal (work >>= next) := by
  intro before failure failed
  rcases done : work before with ⟨reason | x, later⟩
  · rw [Discipline.bind_of_error done] at failed
    obtain rfl := Except.error.inj failed
    exact first before reason (by rw [done])
  · rw [Discipline.bind_of_ok done] at failed
    exact rest x later failure failed

theorem mapM {work : α → ExceptT ε (StateM σ) β} {items : List α}
    (each : ∀ x ∈ items, Willing refusal (work x)) : Willing refusal (items.mapM work) :=
  mapM_closed (Willing refusal) Willing.pure Willing.bind each

end Willing

namespace Traceless

theorem of_still (still : Still work) : Traceless refusal work :=
  fun state _ _ _ => still state

theorem of_willing (willing : Willing refusal work) : Traceless refusal work := by
  intro state failure failed refused
  rw [willing state failure failed] at refused
  cases refused

/-- Nothing is refused any more once something may have changed. -/
theorem bind (first : Traceless refusal work) (rest : ∀ x, Willing refusal (next x)) :
    Traceless refusal (work >>= next) := by
  intro before failure failed refused
  rcases done : work before with ⟨reason | x, later⟩
  · rw [Discipline.bind_of_error done] at failed ⊢
    obtain rfl := Except.error.inj failed
    have same := first before reason (by rw [done]) refused
    rw [done] at same
    exact same
  · rw [Discipline.bind_of_ok done] at failed
    rw [rest x later failure failed] at refused
    cases refused

/-- Nothing has changed yet. -/
theorem after (first : Still work) (rest : ∀ x, Traceless refusal (next x)) :
    Traceless refusal (work >>= next) := by
  intro before failure failed refused
  have same := first before
  rcases done : work before with ⟨reason | x, later⟩
  · rw [Discipline.bind_of_error done]
    rw [done] at same
    exact same
  · rw [done] at same
    obtain rfl := same
    rw [Discipline.bind_of_ok done] at failed ⊢
    exact rest x later failure failed refused

end Traceless

end Work

/-! ## Contexts -/

section Contexts

open Context

variable {α : Type}

theorem Willing.ask {question : Store → Except Fault α}
    (unrefused : ∀ store, Unrefused (question store)) :
    Willing Fault.isRefusal (Context.ask question) :=
  .of_eq fun context => ⟨_, _, ask_eq question context, unrefused context.store⟩

theorem Willing.change {work : Store → Except Fault Store}
    (unrefused : ∀ store, Unrefused (work store)) :
    Willing Fault.isRefusal (Context.change work) :=
  (Willing.ask unrefused).bind fun _ => .modify _

theorem Still.ask (question : Store → Except Fault α) : Still (Context.ask question) := by
  intro context
  rw [ask_eq]

namespace Traceless

theorem ask (question : Store → Except Fault α) :
    Traceless Fault.isRefusal (Context.ask question) :=
  .of_still (.ask question)

theorem onStore (work : Store → Except Fault (α × Store)) :
    Traceless Fault.isRefusal (Context.onStore work) :=
  (Traceless.ask work).bind fun _ => (Willing.modify _).bind fun _ => .pure _

theorem change (work : Store → Except Fault Store) :
    Traceless Fault.isRefusal (Context.change work) :=
  (Traceless.ask work).bind fun _ => .modify _

end Traceless

theorem still_shownAll (values : List Value) : Still (shownAll values) :=
  (Still.mapM fun _ _ => (Still.ask _).bind fun _ => .pure _).bind fun _ => .pure _

theorem willing_shown (value : Value) : Willing Fault.isRefusal (shown value) :=
  (Willing.ask fun store => store.unrefused_text value).bind fun _ => .pure _

theorem willing_shownAll (values : List Value) : Willing Fault.isRefusal (shownAll values) :=
  (Willing.mapM fun value _ => willing_shown value).bind fun _ => .pure _

theorem willing_yielding (quiet : Bool) (value : Value) :
    Willing Fault.isRefusal (yielding quiet value) := by
  unfold yielding
  split
  · exact .pure _
  · exact (willing_shown value).bind fun _ => .pure _

theorem willing_yieldingAny (quiet : Bool) (found : Option Value) :
    Willing Fault.isRefusal (yieldingAny quiet found) := by
  cases found with
  | none => exact .pure _
  | some value => exact willing_yielding quiet value

theorem willing_assign (a : Addr) (key : String) (value : Value) :
    Willing Fault.isRefusal (Context.assign a key value) := by
  have changed : Willing Fault.isRefusal (Context.change (·.assign a key value)) :=
    .change fun store => store.unrefused_assign a key value
  refine (Willing.ask fun store => store.unrefused_owner? a key).bind fun owner => ?_
  cases owner with
  | none => exact (Willing.modify _).bind fun _ => changed
  | some owner => exact changed

theorem ListAction.traceless_run (quiet : Bool) (a : Addr) (action : ListAction Value) :
    Traceless Fault.isRefusal (action.run quiet a) := by
  cases action with
  | extent => exact (Traceless.ask _).bind fun _ => .pure _
  | push value =>
      refine (Traceless.change _).bind fun _ => ?_
      exact (Willing.ask fun store => store.unrefused_readList a).bind fun _ => .pure _
  | items =>
      exact (Traceless.ask _).bind fun items => (willing_shownAll items).bind fun _ => .pure _
  | deepCopy => exact (Traceless.onStore _).bind fun copy => willing_yielding quiet (.list copy)
  | get => exact (Traceless.onStore _).bind (willing_yielding quiet)
  | set => exact (Traceless.onStore _).bind (willing_yielding quiet)
  | pop => exact (Traceless.onStore _).bind (willing_yielding quiet)

theorem MapAction.traceless_run (holders : Addr → List String) (quiet : Bool) (a : Addr)
    {action : MapAction Value} (apart : action.entersScope = false) :
    Traceless Fault.isRefusal (action.run holders quiet a) := by
  cases action with
  | extent => exact (Traceless.ask _).bind fun _ => .pure _
  | contains key => exact (Traceless.ask _).bind fun _ => .pure _
  | owner key =>
      refine (Traceless.ask _).bind fun owner => ?_
      cases owner with
      | none => exact .pure _
      | some scope => exact .look fun _ => .pure _
  | assign key value => exact .of_willing ((willing_assign a key value).bind fun _ => .pure _)
  | child => cases apart
  | deepCopy => exact (Traceless.onStore _).bind fun copy => willing_yielding quiet (.map copy)
  | parent => exact (Traceless.ask _).bind fun _ => willing_yieldingAny quiet _
  | chain =>
      refine .bind ((Traceless.ask _).bind fun chain => ?_) fun _ => .pure _
      exact (Willing.mapM fun scope _ => .ask fun store =>
        store.unrefused_text (.map scope)).bind fun _ => .pure _
  | entries =>
      refine .bind ((Traceless.ask _).bind fun table => ?_) fun _ => .pure _
      exact (Willing.mapM fun entry _ =>
        (willing_shown entry.2).bind fun _ => .pure _).bind fun _ => .pure _
  | find => exact (Traceless.onStore _).bind (willing_yieldingAny quiet)
  | lookup => exact (Traceless.onStore _).bind (willing_yieldingAny quiet)
  | erase => exact (Traceless.onStore _).bind (willing_yieldingAny quiet)
  | insert => exact (Traceless.onStore _).bind (willing_yieldingAny quiet)

end Contexts

/-! ## Places -/

section Places

open Place

variable {α : Type}

theorem Failure.eq_fault_of_mapError {outcome : Except Fault α} {failure : Failure}
    (failed : outcome.mapError Failure.fault = .error failure) :
    ∃ fault, outcome = .error fault ∧ failure = .fault fault := by
  cases outcome with
  | ok x => cases failed
  | error fault => exact ⟨fault, rfl, (Except.error.inj failed).symm⟩

namespace Willing

variable {work : ContextM α}

theorem inPlace (willing : Willing Fault.isRefusal work) :
    Willing Failure.isRefusal (Place.inContext work) := by
  refine .of_eq fun place => ⟨_, _, Place.inContext_eq work place, fun failure failed => ?_⟩
  obtain ⟨fault, stopped, rfl⟩ := Failure.eq_fault_of_mapError failed
  exact willing place.context fault stopped

end Willing

namespace Traceless

variable {work : ContextM α}

theorem inPlace (traceless : Traceless Fault.isRefusal work) :
    Traceless Failure.isRefusal (Place.inContext work) := by
  intro place failure failed refused
  rw [Place.inContext_eq] at failed ⊢
  obtain ⟨fault, stopped, rfl⟩ := Failure.eq_fault_of_mapError failed
  exact congrArg (fun context => { place with context }) (traceless _ fault stopped refused)

theorem inSession (traceless : Traceless Fault.isRefusal work) :
    Traceless Failure.isRefusal (Session.inContext work) := by
  intro session failure failed refused
  rw [Session.inContext_eq] at failed ⊢
  obtain ⟨fault, stopped, rfl⟩ := Failure.eq_fault_of_mapError failed
  exact congrArg (fun context => { session with context }) (traceless _ fault stopped refused)

end Traceless

theorem still_here : Still here :=
  .look fun _ => .pure _

theorem still_hereAs {κ : Type} (kind : Value → Option κ) : Still (hereAs kind) := by
  refine still_here.bind fun value => ?_
  cases kind value with
  | none => exact .throw _
  | some content => exact .pure content

theorem still_requireWritable : Still requireWritable := by
  refine .look fun place => ?_
  split
  · exact .throw _
  · exact .pure _

theorem willing_exchange (changed : Value) : Willing Failure.isRefusal (exchange changed) :=
  .modify _

theorem traceless_copying (quiet : Bool) (value : Value) : Traceless Failure.isRefusal (do
    let copy ← Place.inContext (Context.onStore (·.copy value))
    Place.inContext (Context.yielding quiet copy) : PlaceM Outcome) :=
  (Traceless.onStore _).inPlace.bind fun copy => (willing_yielding quiet copy).inPlace

theorem TupleAction.traceless_run (quiet : Bool) (action : TupleAction Value) :
    Traceless Failure.isRefusal (action.run quiet) := by
  cases action with
  | push value =>
      refine .after still_requireWritable fun _ => .after (still_hereAs _) fun items => ?_
      exact (Traceless.onStore _).inPlace.bind fun copy =>
        (willing_exchange _).bind fun _ => .pure _
  | pop =>
      refine .after still_requireWritable fun _ => .after (still_hereAs _) fun items => ?_
      cases items with
      | nil => exact .of_still (.throw _)
      | cons first rest =>
          exact .of_willing ((willing_exchange _).bind fun _ =>
            (willing_yielding quiet first).inPlace)
  | extent => exact .after (still_hereAs _) fun _ => .of_still (.pure _)
  | get position =>
      refine .after (still_hereAs _) fun items => ?_
      dsimp only
      cases items[position]? with
      | none => exact .of_still (.pure _)
      | some element => exact traceless_copying quiet element
  | items =>
      exact .after (still_hereAs _) fun items =>
        .of_willing ((willing_shownAll items).inPlace.bind fun _ => .pure _)
  | copiedItems =>
      refine .after (still_hereAs _) fun items => ?_
      refine (Traceless.onStore _).inPlace.bind fun copies => ?_
      exact (willing_shownAll copies).inPlace.bind fun _ => .pure _

theorem Action.traceless_run (holders : Addr → List String) (quiet : Bool)
    {action : Action Value} (apart : action.entersScope = false) :
    Traceless Failure.isRefusal (action.run holders quiet) := by
  cases action with
  | read => exact .after still_here fun value => traceless_copying quiet value
  | kind => exact .after still_here fun _ => .of_still (.pure _)
  | truth =>
      refine .after still_here fun value => .bind (.inPlace ?_) fun _ => .pure _
      cases value with
      | list a => exact (Traceless.ask _).bind fun _ => .pure _
      | _ => exact .of_still (.pure _)
  | spell => exact .after still_here fun _ => (Traceless.ask _).inPlace.bind fun _ => .pure _
  | replace value =>
      refine .after still_requireWritable fun _ => .after still_here fun old => ?_
      exact .of_willing ((willing_exchange value).bind fun _ =>
        (willing_yielding quiet old).inPlace)
  | onTuple action => exact action.traceless_run quiet
  | onList action => exact .after (still_hereAs _) fun a => (action.traceless_run quiet a).inPlace
  | onMap action =>
      exact .after (still_hereAs _) fun a => (MapAction.traceless_run holders quiet a apart).inPlace

end Places

/-! ## Calls -/

/-- The session is as it was, but for the record of a conversion that was rejected. -/
structure Session.Unmoved (before after : Session) : Prop where
  same : after = { before with context := { before.context with log := after.context.log } }
  log : after.context.log = before.context.log ∨
    ∃ found, after.context.log = before.context.logged (.conversionRejected found)

theorem Session.Unmoved.refl (session : Session) : session.Unmoved session :=
  ⟨rfl, .inl rfl⟩

theorem Session.Unmoved.silent {before after : Session} (unmoved : before.Unmoved after) :
    after.silent = before.silent := by
  rw [unmoved.same]
  rfl

/-- Whatever is not a tuple is rejected, and that is recorded. -/
theorem Context.listOfTuple_rejected {value : Value} (other : ∀ items, value ≠ .tuple items)
    (context : Context) :
    listOfTuple value context =
      (.error (.refused (.invalidConversion value.tag)),
        { context with log := context.logged (.conversionRejected value.tag) }) := by
  cases value with
  | tuple items => exact absurd rfl (other items)
  | _ => exact (Discipline.bind_of_ok (record_eq _ context)).trans rfl

section Calls

open Session

theorem still_cursor? (name : String) : Still (cursor? name) := by
  refine .look fun session => ?_
  cases session.cursors.get? name with
  | none => exact .throw _
  | some cursor => exact .pure cursor

theorem willing_keeping (keep : Keep) (outcome : Outcome) :
    Willing Failure.isRefusal (keeping keep outcome) := by
  unfold keeping
  cases keep.name with
  | none => exact .pure _
  | some name =>
      cases outcome.yielded with
      | none => exact .pure _
      | some value => exact (Willing.modify _).bind fun _ => .pure _

theorem Traceless.moving {work : SessionM Outcome} (traceless : Traceless Failure.isRefusal work)
    (keep : Option String) : Traceless Failure.isRefusal (Session.moving keep work) :=
  traceless.bind fun _ => (willing_keeping _ _).bind fun _ => .pure _

theorem Traceless.atPath {path : List Hop} {work : PlaceM Outcome}
    (traceless : Traceless Failure.isRefusal (Place.follow path work)) (name : String) :
    Traceless Failure.isRefusal (Session.atPath name path work) := by
  intro session failure failed refused
  cases bound : session.named.get? name with
  | none =>
      have stopped : Session.atPath name path work session = _ :=
        Discipline.bind_of_error (valueOf_of_unbound bound)
      rw [stopped]
  | some value =>
      rw [atPath_of_bound bound] at failed ⊢
      -- The value at the end of the path is put back, which changes nothing: it is the old one.
      rw [traceless _ failure failed refused]
      exact congrArg (fun named => { session with named }) (Table.insert_of_get? bound)

namespace Call

theorem unmoved_of_refused (call : Call) {session : Session} {failure : Failure}
    (failed : (call.run session).1 = .error failure) (refused : failure.isRefusal = true) :
    session.Unmoved (call.run session).2 := by
  have of_traceless : Traceless Failure.isRefusal call.run →
      session.Unmoved (call.run session).2 := by
    intro traceless
    rw [traceless session failure failed refused]
    exact .refl session
  cases call with
  | act name action apart keep =>
      refine of_traceless (.after (fun _ => rfl) fun state => ?_)
      have there : Traceless Failure.isRefusal (Place.follow [] (action.run _ true)) :=
        Action.traceless_run (holders state.named) true apart
      exact (there.atPath name).moving keep
  | toList value keep =>
      by_cases other : ∀ items, value ≠ .tuple items
      · have rejected := inContext_eq (Context.listOfTuple value) session
        rw [Context.listOfTuple_rejected other] at rejected
        have stopped : (toList value keep).run session = _ :=
          Discipline.bind_of_error (Discipline.bind_of_error rejected)
        rw [stopped]
        exact ⟨rfl, .inr ⟨value.tag, rfl⟩⟩
      · obtain ⟨items, rfl⟩ := not_forall_not.mp other
        refine of_traceless (.moving (.bind ?_ fun _ => .pure _) keep)
        exact (Traceless.onStore (·.listOfTuple (.tuple items))).inSession
  | cursorOver cursor value =>
      refine of_traceless ?_
      simp only [run]
      cases Cursor.over? value with
      | none => exact .of_still (.pure _)
      | some fresh => exact .of_willing ((Willing.modify _).bind fun _ => .pure _)
  | cursorNext cursor keep =>
      refine of_traceless (.after (still_cursor? cursor) fun current => ?_)
      refine (Traceless.onStore current.next).inSession.bind fun answer => ?_
      obtain ⟨found, after⟩ := answer
      refine (Willing.modify _).bind fun _ => (Willing.pure _).bind fun _ => ?_
      exact (willing_keeping _ _).bind fun _ => .pure _
  | cursorReset cursor =>
      refine of_traceless (.after (still_cursor? cursor) fun current => ?_)
      exact .of_willing ((Willing.modify _).bind fun _ => .pure _)

end Call

end Calls

/-! ## Commands -/

namespace Session

variable {ρ : Type}

/-- A change in place that is not begun does nothing, whatever work it would have done. -/
theorem within_of_error {name slot : String} {door : Door} {work : StateM Session ρ}
    {session : Session} {failure : Failure}
    (failed : (within name door slot work session).1 = .error failure) {κ : Type}
    (other : StateM Session κ) :
    within name door slot other session = (.error failure, session) := by
  cases bound : session.named.get? name with
  | none =>
      rw [within_of_unbound bound] at failed ⊢
      rw [Except.error.inj failed]
  | some handle =>
      rw [within_of_bound bound] at failed ⊢
      cases found : door.find session.context.store slot handle with
      | error reason =>
          rw [found] at failed
          rw [Except.error.inj failed]
      | ok place =>
          rw [found] at failed
          cases failed

end Session

/-- A command that is refused leaves the session as it was, but for the record of a conversion
that was rejected. -/
theorem Command.unmoved_of_refused {command : Command} {session : Session}
    (refused : (command.run session).1.isRefusal = true) :
    session.Unmoved (command.run session).2 := by
  cases command with
  | call made =>
      rw [run_call] at refused ⊢
      cases failed : (made.run session).1 with
      | error failure =>
          rw [failed] at refused
          exact made.unmoved_of_refused failed refused
      | ok outcome =>
          rw [failed] at refused
          cases refused
  | within name door slot work =>
      rw [run_within] at refused ⊢
      cases failed : (Session.within name door slot (runAll work) session).1 with
      | error failure =>
          rw [Session.within_of_error failed]
          exact .refl session
      | ok replies =>
          rw [failed] at refused
          cases refused

end ScopedValues
