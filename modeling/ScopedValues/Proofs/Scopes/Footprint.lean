import ScopedValues.Proofs.Scopes.Resolution

/-!
Contract: what a write of one binding changes, seen from every scope.

Owns the four ways of writing a binding, the scope each of them writes to, where nothing that
is lent out stands in their way, and the footprint of a write.

Main statement: a write changes one binding of one scope, and another scope sees a
difference only under that key, only if the scope written stands on its chain, and only
if no nearer scope binds the key.

Does not own what a write does that something stands in the way of.
-/

set_option autoImplicit false

namespace ScopedValues

open Store

/-- A write of the binding of a key, made through one scope. -/
inductive ScopeWrite where
  | insert (value : Value)
  | erase
  | assign (value : Value)
  /-- A change in place that does nothing but change its slot. -/
  | entry (change : Value → Context → Value)

namespace ScopeWrite

def run (a : Addr) (key : String) : ScopeWrite → ContextM Unit
  | .insert value => do let _ ← Context.onStore (·.insert a key value)
  | .erase => do let _ ← Context.onStore (·.erase a key)
  | .assign value => Context.assign a key value
  | .entry change =>
      Context.withEntry a key fun value context => ((), change value context, context)

/-- The scope that is written: this one, or the one that the key resolves to. -/
def target (store : Store) (a : Addr) (key : String) : ScopeWrite → Addr
  | .insert _ => a
  | .erase => a
  | .assign _ => (store.nearest? a key).getD a
  | .entry _ => (store.nearest? a key).getD a

/-- Nothing that is lent out stands in the way of the write. -/
def Open (store : Store) (a : Addr) (key : String) : ScopeWrite → Prop
  | .insert _ => a ∉ store.lent
  | .erase => a ∉ store.lent
  | .assign _ => store.Clear a key
  | .entry _ => store.Clear a key

theorem open_of_idle {store : Store} (idle : store.lent = []) (a : Addr) (key : String)
    (write : ScopeWrite) : write.Open store a key := by
  have free : a ∉ store.lent := by simp [idle]
  cases write with
  | insert value => exact free
  | erase => exact free
  | assign value => exact .of_idle idle a key
  | entry change => exact .of_idle idle a key

/-- What the key is bound to afterwards in the scope that is written. -/
def Binds (context : Context) (a : Addr) (key : String) :
    ScopeWrite → Option Value → Prop
  | .insert value, bound => bound = some value
  | .erase, bound => bound = none
  | .assign value, bound => bound = some value
  | .entry change, bound => ∃ owner value store,
      context.store.entry a key = .ok (owner, value, store) ∧
        bound = some (change value { context with store := store.lend owner })

end ScopeWrite

/-- The difference that a write of `key` in the scope at `target` makes to what every scope
resolves keys to. -/
structure Visible (before after : Store) (target : Addr) (key : String) : Prop where
  write : WritesKey before after target key
  chains : ∀ d, after.chain d = before.chain d
  /-- Other keys resolve to the same owner and the same binding. -/
  others : ∀ d second, second ≠ key → after.resolve? d second = before.resolve? d second
  /-- A scope sees a difference only if it sees the scope that is written. -/
  onlyIf : ∀ d, after.resolve? d key ≠ before.resolve? d key →
    ∃ nearer outer, before.chain d = nearer ++ target :: outer ∧
      ∀ scope ∈ nearer, (before.scope scope).bindings.get? key = none
  /-- A scope that sees the scope that is written resolves the key to what is there now,
  and otherwise to the next binding further out. -/
  seen : ∀ d nearer outer, before.chain d = nearer ++ target :: outer →
    (∀ scope ∈ nearer, (before.scope scope).bindings.get? key = none) →
      after.resolve? d key =
        match (after.scope target).bindings.get? key with
        | some value => some (target, value)
        | none => before.resolveAlong key outer

/-- The difference that a write of `key` in the scope at `target` makes to every scope, where
every search comes to an answer. -/
structure Footprint (before after : Store) (target : Addr) (key : String) : Prop extends
    Visible before after target key where
  ownersBefore : ∀ d second,
    before.owner? d second = .ok ((before.resolve? d second).map Prod.fst)
  ownersAfter : ∀ d second,
    after.owner? d second = .ok ((after.resolve? d second).map Prod.fst)

theorem Store.WritesKey.visible {before after : Store} {target : Addr} {key : String}
    (write : WritesKey before after target key) (sound : before.Sound) :
    Visible before after target key where
  write := write
  chains := write.chain_eq
  others d second different := write.resolve?_other d different
  onlyIf d changed := by
    have onChain : target ∈ before.chain d := by
      by_contra away
      exact changed (write.resolve?_away away)
    obtain ⟨nearer, outer, split⟩ := List.append_of_mem onChain
    refine ⟨nearer, outer, split, fun scope member => ?_⟩
    by_contra bound
    exact changed (write.resolve?_shielded sound split member bound)
  seen d nearer outer split unbound := write.resolve?_seen sound split unbound

theorem Visible.footprint {before after : Store} {target : Addr} {key : String}
    (visible : Visible before after target key) (idle : before.lent = []) :
    Footprint before after target key where
  toVisible := visible
  ownersBefore d second := by rw [owner?_eq_nearest? idle, nearest?_eq_resolve?]
  ownersAfter d second := by
    rw [owner?_eq_nearest? (visible.write.lent.trans idle), nearest?_eq_resolve?]

namespace ScopeWrite

variable {context : Context} {a : Addr}

theorem run_insert (free : a ∉ context.store.lent) (key : String) (value : Value) :
    (ScopeWrite.insert value).run a key context =
      (.ok (), { context with store := context.store.setEntry a key value }) :=
  Discipline.bind_of_ok (Context.onStore_eq_ok (insert_of_free free key value))

theorem run_erase (free : a ∉ context.store.lent) (key : String) :
    ScopeWrite.erase.run a key context =
      (.ok (), { context with
        store := context.store.setBindings a ((context.store.scope a).bindings.erase key) }) :=
  Discipline.bind_of_ok (Context.onStore_eq_ok (erase_of_free free key))

/-- A write that nothing stands in the way of succeeds and writes one key of its target. -/
theorem run_writes (sound : context.store.Sound) (isScope : context.store.IsScope a)
    {key : String} {write : ScopeWrite} (isOpen : write.Open context.store a key) :
    ∃ after, write.run a key context = (.ok (), after) ∧
      WritesKey context.store after.store (write.target context.store a key) key ∧
      write.Binds context a key
        ((after.store.scope (write.target context.store a key)).bindings.get? key) := by
  have writerIsScope := isScope_writer sound isScope key
  cases write with
  | insert value =>
      exact ⟨_, run_insert isOpen key value, writesKey_setEntry isScope key value,
        get?_setEntry isScope key value⟩
  | erase =>
      refine ⟨_, run_erase isOpen key,
        writesKey_setBindings isScope (Table.otherEntries_erase _ key), ?_⟩
      change ((context.store.setBindings a _).scope a).bindings.get? key = none
      rw [scope_setBindings_self _ a _ isScope.lt_size]
      exact Table.get?_erase_self _ key (sound.keys a)
  | assign value =>
      exact ⟨_, Context.assign_eq isOpen value, writesKey_setEntry writerIsScope key value,
        get?_setEntry writerIsScope key value⟩
  | entry change =>
      obtain ⟨value, store, found, ran⟩ := Context.withEntry_slot sound isOpen isScope change
      exact ⟨_, ran, writesKey_setEntry writerIsScope key _,
        _, value, store, found, get?_setEntry writerIsScope key _⟩

end ScopeWrite

/-- In a session that can come about, also while changes in place are under way, a write that
nothing stands in the way of is seen where it should be. -/
theorem Session.Reached.write_visible {session : Session} {frames : List Frame}
    (reached : session.Reached frames) {a : Addr} (isScope : session.context.store.IsScope a)
    {key : String} {write : ScopeWrite} (isOpen : write.Open session.context.store a key) :
    ∃ after, write.run a key session.context = (.ok (), after) ∧
      Visible session.context.store after.store
        (write.target session.context.store a key) key ∧
      write.Binds session.context a key
        ((after.store.scope (write.target session.context.store a key)).bindings.get? key) := by
  have sound := reached.stands.sound.context.store
  obtain ⟨after, ran, writes, binds⟩ := ScopeWrite.run_writes sound isScope isOpen
  exact ⟨after, ran, writes.visible sound, binds⟩

/-- With nothing under way, every write through a scope has the footprint it should. -/
theorem Session.Reachable.write_footprint {session : Session} (reachable : session.Reachable)
    {a : Addr} (isScope : session.context.store.IsScope a) (key : String) (write : ScopeWrite) :
    ∃ after, write.run a key session.context = (.ok (), after) ∧
      Footprint session.context.store after.store
        (write.target session.context.store a key) key ∧
      write.Binds session.context a key
        ((after.store.scope (write.target session.context.store a key)).bindings.get? key) := by
  have idle := reachable.nothing_lent
  obtain ⟨after, ran, visible, binds⟩ :=
    Session.Reached.write_visible reachable isScope (write.open_of_idle idle a key)
  exact ⟨after, ran, visible.footprint idle, binds⟩

/-- An assignment through the inner scope is a write of the outer one. -/
theorem Session.write_footprint_twoScopes :
    Session.twoScopes.Reachable ∧ Session.twoScopes.context.store.IsScope 1 ∧
      ∃ after, (ScopeWrite.assign Value.none).run 1 "x" Session.twoScopes.context =
          (.ok (), after) ∧
        Footprint Session.twoScopes.context.store after.store 0 "x" := by
  have isScope : Session.twoScopes.context.store.IsScope 1 := ⟨_, rfl⟩
  obtain ⟨after, ran, footprint, _⟩ :=
    Session.reachable_twoScopes.write_footprint isScope "x" (.assign Value.none)
  exact ⟨Session.reachable_twoScopes, isScope, after, ran, footprint⟩

end ScopedValues
