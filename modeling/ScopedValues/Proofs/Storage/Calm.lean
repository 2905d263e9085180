import ScopedValues.Proofs.Scopes.Chain
import ScopedValues.Proofs.Views.Faults

/-!
Contract: work on storage of which nothing is lent out.

Owns the outcomes that are no conflict, and work on storage that meets no conflict and lends
out nothing.

Main statement: no operation on lists, scopes, copies or cursors, and no walk through values,
meets a conflict where nothing is lent out, whatever its operands have to do with each other.
-/

set_option autoImplicit false

namespace ScopedValues

/-- An outcome that is not the one of touching what is lent out. -/
abbrev Calm {α : Type} (outcome : Except Fault α) : Prop :=
  FailsOnly (· ≠ .conflict) outcome

namespace Store

variable {α β : Type} {store : Store}

/-- Work that meets no conflict, and leaves storage of which nothing is lent out. -/
structure Undisturbed (outcome : Except Fault (α × Store)) : Prop where
  calm : Calm outcome
  idle : ∀ x after, outcome = .ok (x, after) → after.lent = []

namespace Undisturbed

theorem ok (store : Store) (idle : store.lent = []) (x : α) : Undisturbed (.ok (x, store)) where
  calm := .ok _
  idle _ _ same := by
    cases same
    exact idle

theorem error {fault : Fault} (other : fault ≠ .conflict) :
    Undisturbed (.error fault : Except Fault (α × Store)) where
  calm := .error other
  idle _ _ impossible := by cases impossible

theorem ask {question : Except Fault α} {next : α → Except Fault (β × Store)}
    (calm : Calm question) (rest : ∀ x, Undisturbed (next x)) :
    Undisturbed (question >>= next) where
  calm := calm.bind fun x _ => (rest x).calm
  idle y after done := by
    obtain ⟨x, _, done⟩ := bind_eq_ok done
    exact (rest x).idle y after done

theorem bind {outcome : Except Fault (α × Store)} {next : α × Store → Except Fault (β × Store)}
    (first : Undisturbed outcome)
    (rest : ∀ x (later : Store), later.lent = [] → Undisturbed (next (x, later))) :
    Undisturbed (outcome >>= next) where
  calm := first.calm.bind fun pair done => (rest pair.1 pair.2 (first.idle _ _ done)).calm
  idle y after done := by
    obtain ⟨⟨x, later⟩, worked, done⟩ := bind_eq_ok done
    exact (rest x later (first.idle x later worked)).idle y after done

end Undisturbed

/-! ## Questions -/

section Questions

theorem calm_readList (idle : store.lent = []) (a : Addr) : Calm (store.readList a) :=
  (unfailing_free idle a).bind fun _ _ => .ok _

theorem calm_readScope (idle : store.lent = []) (a : Addr) : Calm (store.readScope a) :=
  (unfailing_free idle a).bind fun _ _ => .ok _

theorem calm_bindings (idle : store.lent = []) (a : Addr) : Calm (store.bindings a) :=
  (calm_readScope idle a).bind fun _ _ => .ok _

theorem calm_parent? (idle : store.lent = []) (a : Addr) : Calm (store.parent? a) :=
  (calm_readScope idle a).bind fun _ _ => .ok _

theorem calm_owner? (idle : store.lent = []) (a : Addr) (key : String) :
    Calm (store.owner? a key) := by
  rw [owner?_eq_nearest? idle]
  exact .ok _

theorem calm_enclosing (idle : store.lent = []) (a : Addr) : Calm (store.enclosing a) := by
  rw [enclosing_of_nothing_lent idle]
  exact .ok _

theorem calm_depth (idle : store.lent = []) (a : Addr) : Calm (store.depth a) :=
  (calm_enclosing idle a).bind fun _ _ => .ok _

theorem calm_descends (idle : store.lent = []) (a ancestor : Addr) :
    Calm (store.descends a ancestor) := by
  have meets : ∀ scopes, Calm (store.meets ancestor scopes) := by
    intro scopes
    induction scopes with
    | nil => exact .ok _
    | cons scope outer inductionHypothesis =>
        refine (unfailing_free idle scope).bind fun _ _ => ?_
        split
        · exact .ok _
        · exact inductionHypothesis
  exact (unfailing_free idle a).bind fun _ _ => meets _

theorem calm_equal (idle : store.lent = []) (x y : Value) : Calm (store.equal x y) :=
  Value.failsOnly_equalBy
    (fun a b _ _ => failsOnly_agreeWithin (unfailing_free idle) (by simp) _ a b)
    x.within_anywhere y y.within_anywhere

theorem calm_unfold {ν : Type} {note : Note ν} (idle : store.lent = [])
    (notes : ∀ a inner, Calm (note a inner)) (value : Value) : Calm (store.unfold note value) :=
  Value.failsOnly_unfoldBy
    (fun a _ => failsOnly_followWithin (unfailing_free idle) (by simp) notes _ a) value
    value.within_anywhere

theorem calm_text (idle : store.lent = []) (value : Value) : Calm (store.text value) :=
  (calm_unfold idle (fun _ _ => .ok _) value).bind fun _ _ => .ok _

theorem calm_inspect? (idle : store.lent = []) (value : Value) : Calm (store.inspect? value) :=
  (calm_unfold idle (fun _ _ => .ok _) value).bind fun _ _ => .ok _

theorem calm_ofRefusal (outcome : Except Refusal α) : Calm (Fault.ofRefusal outcome) := by
  cases outcome with
  | ok x => exact .ok x
  | error reason => exact .error (by simp)

theorem calm_item (idle : store.lent = []) (a : Addr) (index : Index) :
    Calm (store.item a index) :=
  (calm_readList idle a).bind fun _ _ => (calm_ofRefusal _).bind fun _ _ => .ok _

end Questions

/-! ## Copies -/

/-- Work on storage of which nothing is lent out. -/
def Quiet (work : StoreM α) : Prop :=
  ∀ store : Store, store.lent = [] → Undisturbed (work store)

namespace Quiet

theorem pure (x : α) : Quiet (Pure.pure x) :=
  fun _ idle => .ok _ idle x

theorem bind {work : StoreM α} {next : α → StoreM β} (first : Quiet work)
    (rest : ∀ x, Quiet (next x)) : Quiet (work >>= next) :=
  fun store idle => (first store idle).bind fun x later stillIdle => rest x later stillIdle

theorem mapM {work : α → StoreM β} {items : List α} (each : ∀ x ∈ items, Quiet (work x)) :
    Quiet (items.mapM work) :=
  mapM_closed Quiet Quiet.pure Quiet.bind each

end Quiet

section Copies

variable {fresh : Addr → StoreM Addr}

theorem quiet_renew (each : ∀ a, Quiet (fresh a)) (value : Value) : Quiet (value.renew fresh) := by
  induction value with
  | scalar x => exact .pure _
  | tuple items inductionHypothesis =>
      rw [Value.renew, renewAll_eq_mapM]
      exact (Quiet.mapM inductionHypothesis).bind fun _ => .pure _
  | list a => exact (each a).bind fun _ => .pure _
  | map a => exact (each a).bind fun _ => .pure _

theorem quiet_renewTuple (each : ∀ a, Quiet (fresh a)) (value : Value) :
    Quiet (value.renewTuple fresh) := by
  cases value with
  | tuple items => exact quiet_renew each (.tuple items)
  | _ => exact .pure _

theorem quiet_renewTuples (each : ∀ a, Quiet (fresh a)) (payload : Payload) :
    Quiet (payload.renewTuples fresh) := by
  cases payload with
  | list items =>
      exact (Quiet.mapM fun item _ => quiet_renewTuple each item).bind fun _ => .pure _
  | scope inner =>
      exact (Quiet.mapM fun entry _ =>
        (quiet_renewTuple each entry.2).bind fun _ => .pure _).bind fun _ => .pure _

theorem quiet_detachWithin (fuel : Nat) : ∀ a, Quiet (detachWithin fuel a) := by
  induction fuel with
  | zero => exact fun _ _ _ => .error (by simp)
  | succ fuel inductionHypothesis =>
      intro a store idle
      have free : a ∉ store.lent := by simp [idle]
      rw [detachWithin_of_free free]
      refine (quiet_renewTuples inductionHypothesis _).bind (fun contents => ?_) store idle
      exact fun later stillIdle => .ok (later.allocate contents).2 stillIdle _

theorem undisturbed_copy (idle : store.lent = []) (value : Value) :
    Undisturbed (store.copy value) :=
  quiet_renewTuple (quiet_detachWithin store.size) value store idle

theorem undisturbed_deepCopy (idle : store.lent = []) (value : Value) :
    Undisturbed (store.deepCopy value) :=
  quiet_renew (quiet_detachWithin store.size) value store idle

theorem undisturbed_deepCopyAll (idle : store.lent = []) (values : List Value) :
    Undisturbed (store.deepCopyAll values) := by
  have quiet : Quiet (Value.renewAll (detachWithin store.size) values) := by
    rw [renewAll_eq_mapM]
    exact .mapM fun value _ => quiet_renew (quiet_detachWithin store.size) value
  exact quiet store idle

theorem undisturbed_detach (idle : store.lent = []) (a : Addr) : Undisturbed (store.detach a) :=
  quiet_detachWithin store.size a store idle

end Copies

/-! ## Lists -/

section Lists

theorem undisturbed_listOfTuple (idle : store.lent = []) (value : Value) :
    Undisturbed (store.listOfTuple value) := by
  cases value with
  | tuple items =>
      refine (undisturbed_deepCopyAll idle items).bind fun fresh later stillIdle => ?_
      exact .ok (later.newList fresh).2 stillIdle _
  | _ => exact .error (by simp)

theorem undisturbed_getItem (idle : store.lent = []) (a : Addr) (index : Index) :
    Undisturbed (store.getItem a index) := by
  refine .ask (calm_readList idle a) fun items => ?_
  exact .ask (calm_ofRefusal _) fun position => undisturbed_copy idle _

theorem undisturbed_setItem (idle : store.lent = []) (a : Addr) (index : Index) (value : Value) :
    Undisturbed (store.setItem a index value) :=
  .ask (calm_item idle a index) fun found =>
    .ok (store.setPosition a found.1 value) idle found.2

theorem undisturbed_push (idle : store.lent = []) (a : Addr) (value : Value) :
    Undisturbed (return ((), ← store.push a value) : Except Fault (Unit × Store)) := by
  refine ⟨?_, ?_⟩
  · exact ((calm_readList idle a).bind fun _ _ => .ok _).bind fun _ _ => .ok _
  · intro _ after done
    obtain ⟨_, pushed, done⟩ := bind_eq_ok done
    obtain ⟨items, _, pushed⟩ := bind_eq_ok pushed
    cases pushed
    cases done
    exact idle

theorem undisturbed_pop (idle : store.lent = []) (a : Addr) (index : Option Index) :
    Undisturbed (store.pop a index) := by
  refine .ask (calm_readList idle a) fun items => .ask (calm_ofRefusal _) fun position => ?_
  exact .ok (store.setItems a (items.eraseIdx position)) idle _

end Lists

/-! ## Scopes -/

section Scopes

theorem undisturbed_find (idle : store.lent = []) (a : Addr) (key : String) :
    Undisturbed (store.find a key) := by
  refine .ask (calm_bindings idle a) fun table => ?_
  cases table.get? key with
  | none => exact .ok _ idle none
  | some value =>
      exact (undisturbed_copy idle value).bind fun copy later stillIdle =>
        .ok _ stillIdle (some copy)

theorem undisturbed_lookup (idle : store.lent = []) (a : Addr) (key : String) :
    Undisturbed (store.lookup a key) := by
  have along : ∀ scopes, Undisturbed (store.findAlong key scopes) := by
    intro scopes
    induction scopes with
    | nil => exact .ok _ idle none
    | cons scope outer inductionHypothesis =>
        refine (undisturbed_find idle scope key).bind fun found later stillIdle => ?_
        cases found with
        | some value => exact .ok _ stillIdle (some value)
        | none => exact inductionHypothesis
  exact along _

theorem undisturbed_insert (idle : store.lent = []) (a : Addr) (key : String) (value : Value) :
    Undisturbed (store.insert a key value) :=
  .ask (calm_bindings idle a) fun table =>
    .ok (store.setBindings a (table.insert key value)) idle _

theorem undisturbed_erase (idle : store.lent = []) (a : Addr) (key : String) :
    Undisturbed (store.erase a key) :=
  .ask (calm_bindings idle a) fun table =>
    .ok (store.setBindings a (table.erase key)) idle _

theorem undisturbed_assign (idle : store.lent = []) (a : Addr) (key : String) (value : Value) :
    Undisturbed (return ((), ← store.assign a key value) : Except Fault (Unit × Store)) := by
  refine ⟨?_, ?_⟩
  · exact ((calm_owner? idle a key).bind fun _ _ =>
      (calm_bindings idle _).bind fun _ _ => .ok _).bind fun _ _ => .ok _
  · intro _ after done
    obtain ⟨_, assigned, done⟩ := bind_eq_ok done
    obtain ⟨owner, _, assigned⟩ := bind_eq_ok assigned
    obtain ⟨table, _, assigned⟩ := bind_eq_ok assigned
    cases assigned
    cases done
    exact idle

end Scopes

end Store

/-! ## Cursors -/

namespace Cursor

open Store

variable {store : Store}

theorem calm_length (idle : store.lent = []) (cursor : Cursor) : Calm (cursor.length store) := by
  obtain ⟨walked, position⟩ := cursor
  cases walked with
  | elements a => exact (calm_readList idle a).bind fun _ _ => .ok _
  | keys a => exact (calm_bindings idle a).bind fun _ _ => .ok _

theorem undisturbed_current? (idle : store.lent = []) (cursor : Cursor) :
    Undisturbed (cursor.current? store) := by
  obtain ⟨walked, position⟩ := cursor
  cases walked with
  | elements a =>
      refine .ask (calm_readList idle a) fun items => ?_
      cases items[position]? with
      | none => exact .ok _ idle none
      | some value =>
          exact (undisturbed_copy idle value).bind fun copy later stillIdle =>
            .ok _ stillIdle (some copy)
  | keys a => exact .ask (calm_bindings idle a) fun table => .ok _ idle _

theorem undisturbed_next (idle : store.lent = []) (cursor : Cursor) :
    Undisturbed (cursor.next store) := by
  refine (undisturbed_current? idle cursor).bind fun found later stillIdle => ?_
  cases found with
  | none => exact .ok _ stillIdle _
  | some value => exact .ok _ stillIdle _

theorem undisturbed_take (idle : store.lent = []) (count : Nat) (cursor : Cursor) :
    Undisturbed (cursor.take count store) := by
  induction count generalizing cursor store with
  | zero => exact .ok _ idle _
  | succ count inductionHypothesis =>
      refine (undisturbed_next idle cursor).bind fun answer later stillIdle => ?_
      obtain ⟨found, moved⟩ := answer
      cases found with
      | none => exact .ok _ stillIdle _
      | some value =>
          exact (inductionHypothesis stillIdle moved).bind fun answer last lastIdle =>
            .ok _ lastIdle _

theorem undisturbed_pass (idle : store.lent = []) (cursor : Cursor) :
    Undisturbed (cursor.pass store) :=
  .ask (calm_length idle cursor) fun length => undisturbed_take idle (length + 1) cursor

end Cursor

end ScopedValues
