import ScopedValues.Proofs.Scopes.Writes
import ScopedValues.Proofs.Sessions.Reachable

/-!
Contract: the one meaning of a key in a scope.

Owns the scope that a write through a chain goes to, and the agreement of the search
for an owner, lookup, change in place and assignment about it.

Main statement: in every session that can come about with nothing under way, all four
stop at the first scope of the chain that binds the key; and assigning a value is the
same as overwriting the entry with it.
-/

set_option autoImplicit false

namespace ScopedValues

namespace Store

variable {store : Store} {a : Addr} {key : String}

/-- The scope that a write through the chain of `a` goes to. -/
def writer (store : Store) (a : Addr) (key : String) : Addr :=
  (store.nearest? a key).getD a

theorem isScope_writer (sound : store.Sound) (isScope : store.IsScope a) (key : String) :
    store.IsScope (store.writer a key) := by
  unfold writer
  cases nearest : store.nearest? a key with
  | none => exact isScope
  | some owner =>
      exact isScope_of_mem_chain sound isScope owner (List.mem_of_find?_eq_some nearest)

/-- The writer stands on the chain with no nearer binding before it. -/
theorem exists_writer_split (store : Store) (a : Addr) (key : String) (sound : store.Sound) :
    ∃ nearer outer, store.chain a = nearer ++ store.writer a key :: outer ∧
      ∀ scope ∈ nearer, (store.scope scope).bindings.get? key = none := by
  unfold writer
  cases nearest : store.nearest? a key with
  | none => exact ⟨[], _, chain_eq_cons sound a, by simp⟩
  | some owner => exact exists_chain_split nearest

/-- The search for a key is not held up, and ends at a scope that is not lent out. -/
structure Clear (store : Store) (a : Addr) (key : String) : Prop where
  found : store.owner? a key = .ok (store.nearest? a key)
  free : store.writer a key ∉ store.lent

theorem Clear.of_idle (idle : store.lent = []) (a : Addr) (key : String) : store.Clear a key where
  found := owner?_eq_nearest? idle a key
  free := by simp [idle]

theorem Clear.bindings (clear : store.Clear a key) :
    store.bindings (store.writer a key) = .ok (store.scope (store.writer a key)).bindings :=
  bindings_of_free clear.free

theorem assign_eq (clear : store.Clear a key) (value : Value) :
    store.assign a key value = .ok (store.setEntry (store.writer a key) key value) := by
  rw [assign, clear.found]
  change store.bindings (store.writer a key) >>= _ = _
  rw [clear.bindings]
  rfl

/-- The place that a key resolves to, in storage where it has just been declared. -/
theorem entry_eq (clear : store.Clear a key) :
    store.entry a key =
      .ok (store.writer a key,
        (((store.scope (store.writer a key)).bindings.declare key Value.none).get? key).getD
          Value.none,
        store.setBindings (store.writer a key)
          ((store.scope (store.writer a key)).bindings.declare key Value.none)) := by
  rw [entry, clear.found]
  change store.bindings (store.writer a key) >>= _ = _
  rw [clear.bindings]
  rfl

theorem insert_of_free (free : a ∉ store.lent) (key : String) (value : Value) :
    store.insert a key value =
      .ok ((store.scope a).bindings.get? key, store.setEntry a key value) := by
  rw [Store.insert, bindings_of_free free]
  rfl

theorem erase_of_free (free : a ∉ store.lent) (key : String) :
    store.erase a key = .ok ((store.scope a).bindings.get? key,
      store.setBindings a ((store.scope a).bindings.erase key)) := by
  rw [Store.erase, bindings_of_free free]
  rfl

/-- The place of a key that is bound is there already. -/
theorem Clear.entry_of_bound (clear : store.Clear a key) (sound : store.Sound)
    (isScope : store.IsScope a) {owner : Addr} (nearest : store.nearest? a key = some owner)
    {value : Value} (bound : (store.scope owner).bindings.get? key = some value) :
    store.entry a key = .ok (owner, value, store) := by
  have writer : store.writer a key = owner := by rw [Store.writer, nearest]; rfl
  have ownerIsScope : store.IsScope owner := writer ▸ isScope_writer sound isScope key
  have contains : (store.scope owner).bindings.contains key = true := by
    rw [← Table.isSome_get?, bound]
    rfl
  rw [entry_eq clear, writer, Table.declare, if_pos contains, bound,
    setBindings_bindings ownerIsScope]
  rfl

theorem entry_of_bound (idle : store.lent = []) (sound : store.Sound) (isScope : store.IsScope a)
    {owner : Addr} (nearest : store.nearest? a key = some owner) {value : Value}
    (bound : (store.scope owner).bindings.get? key = some value) :
    store.entry a key = .ok (owner, value, store) :=
  (Clear.of_idle idle a key).entry_of_bound sound isScope nearest bound

theorem entry_of_unbound (idle : store.lent = []) (unbound : store.nearest? a key = none) :
    store.entry a key =
      .ok (a, Value.none,
        store.setBindings a ⟨(store.scope a).bindings.entries ++ [(key, Value.none)]⟩) := by
  have writer : store.writer a key = a := by rw [Store.writer, unbound]; rfl
  have here : store.binds key a = false :=
    (nearest?_eq_none_iff store a key).mp unbound a (mem_chain_self store a)
  have absent : (store.scope a).bindings.contains key = false := here
  have nothing : (store.scope a).bindings.get? key = none := get?_eq_none_of_not_binds here
  rw [entry_eq (.of_idle idle a key), writer, Table.declare, absent, if_neg Bool.false_ne_true]
  have appended : (Table.mk ((store.scope a).bindings.entries ++ [(key, Value.none)])).get? key =
      some Value.none := by
    rw [Table.get?, Option.map_eq_none_iff] at nothing
    rw [Table.get?, List.find?_append, nothing]
    simp
  rw [appended]
  rfl

theorem setBindings_setBindings (store : Store) (a : Addr) (first second : Table Value) :
    (store.setBindings a first).setBindings a second = store.setBindings a second := by
  rw [setBindings, parent_setBindings, setBindings, Array.setIfInBounds_setIfInBounds]
  rfl

theorem setEntry_declare (isScope : store.IsScope a) (first value : Value) :
    (store.setBindings a ((store.scope a).bindings.declare key first)).setEntry a key value =
      store.setEntry a key value := by
  rw [setEntry, scope_setBindings_self store a _ isScope.lt_size, setBindings_setBindings,
    Table.insert_declare]
  rfl

theorem writesKey_setEntry (isScope : store.IsScope a) (key : String) (value : Value) :
    WritesKey store (store.setEntry a key value) a key :=
  writesKey_setBindings isScope (Table.otherEntries_insert _ key value)

/-- A write of one key changes for no scope where another key is written. -/
theorem WritesKey.nearest?_other {before after : Store} {target : Addr}
    (write : WritesKey before after target key) (a : Addr) {second : String}
    (different : second ≠ key) : after.nearest? a second = before.nearest? a second := by
  rw [nearest?_eq_resolve?, nearest?_eq_resolve?, write.resolve?_other a different]

theorem WritesKey.writer_other {before after : Store} {target : Addr}
    (write : WritesKey before after target key) (a : Addr) {second : String}
    (different : second ≠ key) : after.writer a second = before.writer a second := by
  rw [writer, writer, write.nearest?_other a different]

theorem get?_setEntry (isScope : store.IsScope a) (key : String) (value : Value) :
    ((store.setEntry a key value).scope a).bindings.get? key = some value := by
  rw [setEntry, scope_setBindings_self store a _ isScope.lt_size, Table.get?_insert_self]

/-- What is written through a chain is what the key then means there. -/
theorem resolve?_setEntry_writer (sound : store.Sound) (isScope : store.IsScope a)
    (key : String) (value : Value) :
    (store.setEntry (store.writer a key) key value).resolve? a key =
      some (store.writer a key, value) := by
  have writerIsScope := isScope_writer sound isScope key
  obtain ⟨nearer, outer, split, unbound⟩ := exists_writer_split store a key sound
  rw [(writesKey_setEntry writerIsScope key value).resolve?_seen sound split unbound,
    get?_setEntry writerIsScope]

end Store

/-! ## Changes in place and assignment -/

namespace Context

open Store

variable {ρ : Type}

/-- Work in place on a binding, whose scope is lent out meanwhile. -/
def onEntry (owner : Addr) (key : String) (value : Value) (work : InPlace ρ)
    (context : Context) : Except Fault ρ × Context :=
  let (answer, after) :=
    lending owner value (fun store changed => store.setEntry owner key changed) work context
  (.ok answer, after)

/-- Work in place that leaves a given value. -/
def overwriting (value : Value) : InPlace Unit :=
  fun _ context => ((), value, context)

theorem withEntry_eq {context : Context} {a owner : Addr} {key : String} {value : Value}
    {store : Store} (found : context.store.entry a key = .ok (owner, value, store))
    (work : InPlace ρ) :
    withEntry a key work context = onEntry owner key value work { context with store } := by
  unfold withEntry
  rw [found]
  rfl

theorem onEntry_slot (owner : Addr) (key : String) (value : Value)
    (change : Value → Context → Value) (context : Context) :
    onEntry owner key value (fun value context => ((), change value context, context)) context =
      (.ok (), { context with
        store := context.store.setEntry owner key
          (change value { context with store := context.store.lend owner }) }) :=
  rfl

section Agreement

variable {context : Context} {a : Addr} {key : String}

/-- A change in place of nothing but the slot is a write of the entry. -/
theorem withEntry_slot (sound : context.store.Sound) (clear : context.store.Clear a key)
    (isScope : context.store.IsScope a) (change : Value → Context → Value) :
    ∃ value store,
      context.store.entry a key = .ok (context.store.writer a key, value, store) ∧
        withEntry a key (fun value context => ((), change value context, context)) context =
          (.ok (), { context with
            store := context.store.setEntry (context.store.writer a key) key
              (change value
                { context with store := store.lend (context.store.writer a key) }) }) := by
  have entered := entry_eq clear
  refine ⟨_, _, entered, (withEntry_eq entered _).trans ?_⟩
  rw [onEntry_slot, setEntry_declare (isScope_writer sound isScope key)]

theorem assign_eq (clear : context.store.Clear a key) (value : Value) :
    assign a key value context =
      (.ok (), { context with
        store := context.store.setEntry (context.store.writer a key) key value
        log := if (context.store.nearest? a key).isNone then
          context.logged (.assignmentDeclared key) else context.log }) := by
  have asked : ask (·.owner? a key) context =
      (.ok (context.store.nearest? a key), context) := by
    rw [ask_eq, clear.found]
  unfold assign
  rw [Discipline.bind_of_ok asked]
  cases context.store.nearest? a key with
  | some owner => exact change_eq_ok (Store.assign_eq clear value)
  | none =>
      simp only [Option.isNone_none, if_true]
      rw [Discipline.bind_of_ok (record_eq (.assignmentDeclared key) context)]
      exact change_eq_ok (Store.assign_eq clear value)

end Agreement

/-! ## One meaning -/

/-- No scope of the chain binds the key: it is declared where a change in place needs it. -/
structure Unbound (context : Context) (a : Addr) (key : String) : Prop where
  chain : ∀ scope ∈ context.store.chain a,
    (context.store.scope scope).bindings.get? key = none
  found : context.store.owner? a key = .ok none
  lookup : context.store.lookup a key = .ok (none, context.store)
  inPlace : ∀ {ρ : Type} (work : InPlace ρ),
    withEntry a key work context =
      onEntry a key Value.none work { context with
        store := context.store.setBindings a
          ⟨(context.store.scope a).bindings.entries ++ [(key, Value.none)]⟩ }

/-- `owner` is the first scope of the chain that binds the key, and binds it to `value`. -/
structure Bound (context : Context) (a : Addr) (key : String) (owner : Addr)
    (value : Value) : Prop where
  chain : ∃ nearer outer, context.store.chain a = nearer ++ owner :: outer ∧
    ∀ scope ∈ nearer, (context.store.scope scope).bindings.get? key = none
  binding : (context.store.scope owner).bindings.get? key = some value
  found : context.store.owner? a key = .ok (some owner)
  lookup : context.store.lookup a key = foundCopy (context.store.copy value)
  inPlace : ∀ {ρ : Type} (work : InPlace ρ),
    withEntry a key work context = onEntry owner key value work context

/-- Assignment and overwriting in place both leave `written`, where the key means `value`. -/
structure Overwritten (context : Context) (a : Addr) (key : String) (value : Value)
    (target : Addr) (written : Store) : Prop where
  assigned : ∃ log, assign a key value context = (.ok (), { context with store := written, log })
  overwritten : withEntry a key (overwriting value) context =
    (.ok (), { context with store := written })
  table : written = context.store.setBindings target
    ((context.store.scope target).bindings.insert key value)
  found : written.owner? a key = .ok (some target)
  binding : (written.scope target).bindings.get? key = some value
  others : WritesKey context.store written target key
  lookup : written.lookup a key = foundCopy (written.copy value)

/-- The searches through the chain of `a` and the writes along it agree about the key. -/
structure OneMeaning (context : Context) (a : Addr) (key : String) : Prop where
  enclosing : context.store.enclosing a = .ok (context.store.chain a)
  links : context.store.chain a = a ::
    match (context.store.scope a).parent with
    | some parent => context.store.chain parent
    | none => []
  none_iff : context.store.owner? a key = .ok none ↔
    ∀ scope ∈ context.store.chain a, (context.store.scope scope).bindings.get? key = none
  resolved : Unbound context a key ∨ ∃ owner value, Bound context a key owner value
  written : ∀ value, ∃ target,
    (context.store.owner? a key = .ok (some target) ∨
      context.store.owner? a key = .ok none ∧ target = a) ∧
    Overwritten context a key value target (context.store.setEntry target key value)

section OneMeaning

variable {context : Context} {a : Addr}

theorem unbound_of_nearest? (idle : context.store.lent = []) {key : String}
    (nearest : context.store.nearest? a key = none) : Unbound context a key where
  chain scope member :=
    get?_eq_none_of_not_binds ((nearest?_eq_none_iff _ a key).mp nearest scope member)
  found := by rw [owner?_eq_nearest? idle, nearest]
  lookup := by rw [lookup_eq idle, resolve?_of_unbound nearest]
  inPlace work := withEntry_eq (entry_of_unbound idle nearest) work

theorem bound_of_nearest? (sound : context.store.Sound) (idle : context.store.lent = [])
    (isScope : context.store.IsScope a) {key : String} {owner : Addr}
    (nearest : context.store.nearest? a key = some owner) :
    ∃ value, Bound context a key owner value := by
  obtain ⟨value, bound, resolved⟩ := resolve?_of_nearest? nearest
  refine ⟨value, exists_chain_split nearest, bound, ?_, ?_, fun work => ?_⟩
  · rw [owner?_eq_nearest? idle, nearest]
  · rw [lookup_eq idle, resolved]
  · exact withEntry_eq (entry_of_bound idle sound isScope nearest bound) work

theorem overwritten_writer (sound : context.store.Sound) (idle : context.store.lent = [])
    (isScope : context.store.IsScope a) (key : String) (value : Value) :
    Overwritten context a key value (context.store.writer a key)
      (context.store.setEntry (context.store.writer a key) key value) := by
  have writerIsScope := isScope_writer sound isScope key
  have stillIdle : (context.store.setEntry (context.store.writer a key) key value).lent = [] := idle
  have resolved := resolve?_setEntry_writer sound isScope key value
  refine {
    assigned := ⟨_, assign_eq (.of_idle idle a key) value⟩
    overwritten := ?_
    table := rfl
    found := ?_
    binding := get?_setEntry writerIsScope key value
    others := writesKey_setEntry writerIsScope key value
    lookup := ?_ }
  · obtain ⟨_, _, _, overwritten⟩ :=
      withEntry_slot sound (.of_idle idle a key) isScope fun _ _ => value
    exact overwritten
  · rw [owner?_eq_nearest? stillIdle, nearest?_eq_resolve?, resolved]
    rfl
  · rw [lookup_eq stillIdle, resolved]

end OneMeaning

end Context

/-- In a session that can come about, a key has one meaning in every scope. -/
theorem Session.Reachable.one_meaning {session : Session} (reachable : session.Reachable)
    {a : Addr} (isScope : session.context.store.IsScope a) (key : String) :
    Context.OneMeaning session.context a key where
  enclosing := Store.enclosing_of_nothing_lent reachable.nothing_lent a
  links := Store.chain_eq_cons reachable.sound a
  none_iff := by
    rw [Store.owner?_eq_nearest? reachable.nothing_lent, Except.ok.injEq,
      Store.nearest?_eq_none_iff]
    simp only [Store.binds_eq_isSome, Option.isSome_eq_false_iff, Option.isNone_iff_eq_none]
  resolved := by
    cases nearest : session.context.store.nearest? a key with
    | none => exact Or.inl (Context.unbound_of_nearest? reachable.nothing_lent nearest)
    | some owner =>
        exact Or.inr ⟨owner,
          Context.bound_of_nearest? reachable.sound reachable.nothing_lent isScope nearest⟩
  written value := by
    refine ⟨session.context.store.writer a key, ?_,
      Context.overwritten_writer reachable.sound reachable.nothing_lent isScope key value⟩
    rw [Store.owner?_eq_nearest? reachable.nothing_lent]
    unfold Store.writer
    cases session.context.store.nearest? a key with
    | none => exact Or.inr ⟨rfl, rfl⟩
    | some owner => exact Or.inl rfl

/-- A scope that binds a key, and a scope inside it that does not. -/
def Session.twoScopes : Session :=
  (Session.start false).run [
    .scope .root { name := some "outer" },
    .act "outer" [] (.onMap (.assign "x" (.scalar (.str "first")))) {},
    .scope (.child "outer") { name := some "inner" }]

theorem Session.reachable_twoScopes : Session.twoScopes.Reachable :=
  (Session.Reached.start false).run _

theorem Session.one_meaning_twoScopes :
    Session.twoScopes.Reachable ∧ Session.twoScopes.context.store.IsScope 1 ∧
      Context.OneMeaning Session.twoScopes.context 1 "x" :=
  ⟨Session.reachable_twoScopes, ⟨_, rfl⟩,
    Session.reachable_twoScopes.one_meaning ⟨_, rfl⟩ "x"⟩

end ScopedValues
