import ScopedValues.Proofs.Isolation.Runs
import ScopedValues.Proofs.Scopes.History
import ScopedValues.Proofs.Scopes.Reentrancy

/-!
Contract: what a run does to the bindings of one scope.

Owns the moves of a run that is seen from one scope, the deeds that come about by them, and
what is listed of the scope in the end.

Main statement: whatever is written to a scope that was empty, through whatever scope and
wherever in between changes in place, its bindings are at every moment those that the history
of what reached it tells of; a deep copy goes on with the history of its source.
-/

set_option autoImplicit false

namespace ScopedValues

open Store

/-! ## Deeds -/

/-- The scope whose bindings are written, and what happens to them. -/
def Write.deed? (store : Store) : Write → Option (Addr × Deed)
  | .insert a key value => some (a, .bind key value)
  | .erase a key => some (a, .erase key)
  | .assign a key value => some (store.writer a key, .bind key value)
  | _ => none

/-- What happens to the bindings of a scope when something happens to those of `target`. -/
def History.reaching (scope target : Addr) (deed : Deed) : History :=
  if target = scope then [deed] else []

/-- What a write does to the bindings of a scope, which is nothing if it fails. -/
def Write.deeds (context : Context) (scope : Addr) (write : Write) : History :=
  match (write.run context).1, write.deed? context.store with
  | .ok _, some (target, deed) => History.reaching scope target deed
  | _, _ => []

/-- A change in place declares a key that is not bound yet. -/
def Store.declaration (store : Store) (scope owner : Addr) (key : String) : History :=
  if store.binds key owner then [] else History.reaching scope owner (.bind key Value.none)

/-- Putting a changed value back writes it. -/
def Frame.deeds (scope : Addr) (value : Value) : Frame → History
  | .item _ _ _ => []
  | .entry owner key _ => History.reaching scope owner (.bind key value)

/-! ## Runs -/

/-- A scope that is followed, while changes in place are under way, innermost first. -/
structure Scene where
  scope : Addr
  context : Context
  frames : List Frame

namespace Scene

abbrev store (scene : Scene) : Store :=
  scene.context.store

/-- The bindings of the scope. -/
def table (scene : Scene) : Table Value :=
  (scene.store.scope scene.scope).bindings

/-- One move of a run, and what it does to the bindings of the scope. -/
inductive Move : Scene → History → Scene → Prop where
  /-- Anything is added to storage. -/
  | grow {scope : Addr} {context later : Context} {frames : List Frame}
      (adds : context.store.Extends later.store) (sound : later.store.Sound) :
      Move ⟨scope, context, frames⟩ [] ⟨scope, later, frames⟩
  | write {scope : Addr} {context : Context} {frames : List Frame} (write : Write)
      (fits : write.Fits context.store) :
      Move ⟨scope, context, frames⟩ (write.deeds context scope)
        ⟨scope, (write.run context).2, frames⟩
  | enterItem {scope : Addr} {context : Context} {frames : List Frame} {a : Addr}
      {index : Index} {position : Nat} {value : Value} (isList : context.store.IsList a)
      (found : context.store.item a index = .ok (position, value)) (slot : String) :
      Move ⟨scope, context, frames⟩ []
        ⟨scope, { context with store := context.store.lend a }, .item a position slot :: frames⟩
  | enterEntry {scope : Addr} {context : Context} {frames : List Frame} {a owner : Addr}
      {key : String} {value : Value} {store : Store} (isScope : context.store.IsScope a)
      (found : context.store.entry a key = .ok (owner, value, store)) (slot : String) :
      Move ⟨scope, context, frames⟩ (context.store.declaration scope owner key)
        ⟨scope, { context with store := store.lend owner }, .entry owner key slot :: frames⟩
  | leave {scope : Addr} {context : Context} {frame : Frame} {frames : List Frame}
      {value : Value} (held : value.Held context.store) :
      Move ⟨scope, context, frame :: frames⟩ (frame.deeds scope value)
        ⟨scope, { context with store := frame.putBack context.store.regain value }, frames⟩
  /-- The run goes on with a deep copy of the scope. -/
  | copy {scope fresh : Addr} {context : Context} {frames : List Frame} {store : Store}
      (done : context.store.detach scope = .ok (fresh, store)) :
      Move ⟨scope, context, frames⟩ [.copied context.store store]
        ⟨fresh, { context with store }, frames⟩

/-- A run, and what it does to the bindings of the scope. -/
inductive Chronicle : Scene → History → Scene → Prop where
  | done (scene : Scene) : Chronicle scene [] scene
  | move {before middle last : Scene} {deeds further : History} (move : Move before deeds middle)
      (rest : Chronicle middle further last) : Chronicle before (deeds ++ further) last

/-- What holds of a scene that can come about. -/
structure Stands (scene : Scene) : Prop where
  sound : scene.store.Sound
  isScope : scene.store.IsScope scene.scope
  fits : ∀ frame ∈ scene.frames, frame.Fits scene.store

end Scene

/-! ## What a move does -/

namespace Store

variable {store : Store} {scope a : Addr}

theorem makes_setBindings (isScope : store.IsScope scope) {deed : Deed} {changed : Table Value}
    (made : deed.Makes (store.scope a).bindings changed) :
    History.Makes (.reaching scope a deed) (store.scope scope).bindings
      ((store.setBindings a changed).scope scope).bindings := by
  unfold History.reaching
  split
  · rename_i same
    subst same
    rw [scope_setBindings_self store a changed isScope.lt_size]
    exact History.makes_singleton.mpr made
  · rename_i different
    rw [scope_setBindings_of_ne store a scope changed (Ne.symm different)]
    rfl

theorem makes_setEntry (isScope : store.IsScope scope) (key : String) (value : Value) :
    History.Makes (.reaching scope a (.bind key value)) (store.scope scope).bindings
      ((store.setEntry a key value).scope scope).bindings :=
  makes_setBindings isScope rfl

theorem makes_declare (isScope : store.IsScope scope) (ownerIsScope : store.IsScope a)
    (key : String) :
    History.Makes (store.declaration scope a key) (store.scope scope).bindings
      ((store.setBindings a ((store.scope a).bindings.declare key Value.none)).scope
        scope).bindings := by
  unfold declaration
  cases bound : store.binds key a with
  | true =>
      have kept : (store.scope a).bindings.declare key Value.none = (store.scope a).bindings :=
        if_pos bound
      rw [kept, setBindings_bindings ownerIsScope]
      rfl
  | false =>
      rw [if_neg Bool.false_ne_true]
      exact makes_setBindings isScope (Table.declare_of_unbound _ bound)

theorem makes_detach (sound : store.Sound) (isScope : store.IsScope scope) {fresh : Addr}
    {after : Store} (done : store.detach scope = .ok (fresh, after)) :
    History.Makes [.copied store after] (store.scope scope).bindings
      (after.scope fresh).bindings := by
  have whole : store.deepCopy (.map scope) = .ok (.map fresh, after) := by
    rw [deepCopy_map, done]
    rfl
  obtain ⟨_, copied⟩ :=
    CopyMode.run_ok sound.toTyped ((Value.held_map store scope).mpr isScope) .deep whole
  cases copied with
  | freshMap free source made _ parent keys elements =>
      have old : store.scope scope = _ := scope_of_payload source
      have new : after.scope fresh = _ := scope_of_payload made
      rw [old, new]
      exact History.makes_singleton.mpr ⟨keys, elements⟩

end Store

/-! ## What a write does -/

namespace Store

/-- A change of the bindings of a scope that answers what was bound before, which inserting and
erasing both are. -/
def rebind (store : Store) (a : Addr) (key : String) (change : Table Value → Table Value) :
    Except Fault (Option Value × Store) := do
  let table ← store.bindings a
  .ok (table.get? key, store.setBindings a (change table))

end Store

namespace Context

variable {context : Context} {a : Addr}

theorem onStore_rebind_of_lent (lent : a ∈ context.store.lent) (key : String)
    (change : Table Value → Table Value) :
    (do let _ ← onStore (·.rebind a key change) : ContextM Unit) context =
      (.error .conflict, context) := by
  have refused : context.store.rebind a key change = .error .conflict := by
    rw [rebind, Store.bindings, readScope_eq, if_pos lent]
    rfl
  have asked : ask (·.rebind a key change) context = (.error .conflict, context) := by
    rw [ask_eq, refused]
  exact Discipline.bind_of_error (Discipline.bind_of_error asked)

theorem onStore_rebind_of_free (free : a ∉ context.store.lent) (key : String)
    (change : Table Value → Table Value) :
    (do let _ ← onStore (·.rebind a key change) : ContextM Unit) context =
      (.ok (), { context with
        store := context.store.setBindings a (change (context.store.scope a).bindings) }) := by
  have done : context.store.rebind a key change =
      .ok ((context.store.scope a).bindings.get? key,
        context.store.setBindings a (change (context.store.scope a).bindings)) := by
    rw [rebind, bindings_of_free free]
    rfl
  exact Discipline.bind_of_ok (onStore_eq_ok done)

end Context

namespace Write

variable {context : Context} {scope : Addr} {write : Write}

theorem deeds_of_none (aside : write.deed? context.store = none) :
    write.deeds context scope = [] := by
  unfold deeds
  rw [aside]
  cases (write.run context).1 <;> rfl

theorem deeds_of_error {fault : Fault} (failed : (write.run context).1 = .error fault) :
    write.deeds context scope = [] := by
  unfold deeds
  rw [failed]

theorem deeds_of_ok {target : Addr} {deed : Deed} (done : (write.run context).1 = .ok ())
    (reaches : write.deed? context.store = some (target, deed)) :
    write.deeds context scope = .reaching scope target deed := by
  unfold deeds
  rw [done, reaches]

/-- A write of a list leaves all bindings alone. -/
theorem scope_run_of_list (sound : context.store.Sound) (isScope : context.store.IsScope scope)
    (fits : write.Fits context.store)
    (elsewhere : write.Inside context.store fun a => context.store.IsList a) :
    (write.run context).2.store.scope scope = context.store.scope scope := by
  have keeps := keeps_run sound fits elsewhere
  have spares : Spares (fun a => context.store.IsList a) context.store
    (write.run context).2.store := keeps.grows
  have noList : ¬ context.store.IsList scope := fun isList => by
    simpa [isList.payload_eq] using isScope.payload_eq
  simp only [Store.scope, spares.payloads scope isScope.lt_size noList]

/-- A change of the bindings of one scope, as a write, is the deed that it is, if it succeeds. -/
theorem makes_rebind (isScope : context.store.IsScope scope) {a : Addr} {key : String}
    {change : Table Value → Table Value} {deed : Deed}
    (ran : write.run = do let _ ← Context.onStore (·.rebind a key change))
    (reaches : write.deed? context.store = some (a, deed))
    (made : ∀ table, deed.Makes table (change table)) :
    History.Makes (write.deeds context scope) (context.store.scope scope).bindings
      ((write.run context).2.store.scope scope).bindings := by
  by_cases lent : a ∈ context.store.lent
  · have stopped : write.run context = (.error .conflict, context) := by
      rw [ran]
      exact Context.onStore_rebind_of_lent lent key change
    rw [deeds_of_error (congrArg Prod.fst stopped), stopped]
    rfl
  · have done : write.run context = (.ok (), { context with
        store := context.store.setBindings a (change (context.store.scope a).bindings) }) := by
      rw [ran]
      exact Context.onStore_rebind_of_free lent key change
    rw [deeds_of_ok (congrArg Prod.fst done) reaches, done]
    exact makes_setBindings isScope (made _)

theorem inside_everywhere (write : Write) (store : Store) : write.Inside store fun _ => True := by
  cases write <;> simp [Inside]

theorem makes_run (sound : context.store.Sound) (isScope : context.store.IsScope scope)
    (fits : write.Fits context.store) :
    History.Makes (write.deeds context scope) (context.store.scope scope).bindings
      ((write.run context).2.store.scope scope).bindings := by
  have listed : write.deed? context.store = none →
      (write.Inside context.store fun a => context.store.IsList a) →
        History.Makes (write.deeds context scope) (context.store.scope scope).bindings
          ((write.run context).2.store.scope scope).bindings := by
    intro aside elsewhere
    rw [deeds_of_none aside, scope_run_of_list sound isScope fits elsewhere]
    rfl
  cases write with
  | push a value => exact listed rfl fits.1
  | set a index value => exact listed rfl fits.1
  | pop a index => exact listed rfl fits
  | insert a key value => exact makes_rebind isScope rfl rfl fun _ => rfl
  | erase a key => exact makes_rebind isScope rfl rfl fun _ => rfl
  | assign a key value =>
      by_cases blocked : context.store.Blocked context.store.lent a key
      · have stopped : (Write.assign a key value).run context = (.error .conflict, context) :=
          Context.assign_of_blocked blocked value
        rw [deeds_of_error (congrArg Prod.fst stopped), stopped]
        rfl
      · have done : (Write.assign a key value).run context = _ :=
          Context.assign_eq (clear_of_not_blocked sound blocked) value
        rw [deeds_of_ok (congrArg Prod.fst done) rfl, done]
        exact makes_setEntry isScope key value

end Write

/-- Finding the place of a key declares the key where a write through the chain goes. -/
theorem Store.written_of_entry {store after : Store} {a owner : Addr} {key : String}
    {value : Value} (sound : store.Sound)
    (found : store.entry a key = .ok (owner, value, after)) :
    owner = store.writer a key ∧
      after = store.setBindings owner ((store.scope owner).bindings.declare key Value.none) := by
  -- An entry has been found, so no scope that is held came before the owner.
  have free : ¬ store.Blocked store.lent a key := by
    intro blocked
    rw [entry_of_blocked blocked] at found
    cases found
  have entered := (entry_eq (clear_of_not_blocked sound free)).symm.trans found
  cases entered
  exact ⟨rfl, rfl⟩

/-! ## What a run does -/

namespace Scene

variable {before after last : Scene} {deeds : History}

theorem Stands.develop {scene : Scene} (stands : scene.Stands) {later : Context}
    (sound : later.store.Sound) (retains : scene.store.Retains later.store) :
    Stands { scene with context := later } where
  sound := sound
  isScope := retains.scopes _ stands.isScope
  fits frame member := (stands.fits frame member).retain retains

theorem Stands.enter {scene : Scene} (stands : scene.Stands) {frame : Frame}
    (fits : frame.Fits scene.store) :
    Stands { scene with
      context := { scene.context with store := scene.store.lend frame.storage }
      frames := frame :: scene.frames } := by
  have lent : scene.store.Retains (scene.store.lend frame.storage) := .of_payloads rfl
  refine ⟨stands.sound.of_payloads rfl, lent.scopes _ stands.isScope, fun other member => ?_⟩
  rcases List.mem_cons.mp member with rfl | outer
  · exact fits.retain lent
  · exact (stands.fits other outer).retain lent

theorem makes_putBack {store : Store} {scope : Addr} {frame : Frame} (isScope : store.IsScope scope)
    (fits : frame.Fits store) (value : Value) :
    History.Makes (frame.deeds scope value) (store.scope scope).bindings
      ((frame.putBack store value).scope scope).bindings := by
  cases frame with
  | item a position slot =>
      have same : (store.setPosition a position value).scope scope = store.scope scope :=
        scope_setItems fits scope _
      exact congrArg Scope.bindings same
  | entry a key slot => exact makes_setEntry isScope key value

theorem Move.retains (move : Move before deeds after) (stands : before.Stands) :
    before.store.Retains after.store := by
  have sound : before.store.Sound := stands.sound
  cases move with
  | grow adds laterSound => exact adds.grows.toRetains
  | @write scope context frames write fits =>
      have grows : Spares _ _ _ := (Write.keeps_run sound fits (write.inside_everywhere _)).grows
      exact grows.toRetains
  | enterItem isList found slot => exact .of_payloads rfl
  | enterEntry isScope found slot =>
      have develops := (entry_keeps sound isScope found).1
      exact develops.grows.toRetains.trans (.of_payloads rfl)
  | @leave scope context frame frames value held =>
      have back : context.store.Retains context.store.regain := .of_payloads rfl
      have regained : context.store.regain.Sound := sound.of_payloads rfl
      have fits := (stands.fits frame List.mem_cons_self).retain back
      exact back.trans (Frame.develops_putBack regained fits (held.retain back)).grows.toRetains
  | copy done => exact (keeps_detach_map sound stands.isScope _ _ done).1.grows.toRetains

/-- A move does to the bindings of the scope what it is told to do. -/
theorem Move.makes (move : Move before deeds after) (stands : before.Stands) :
    after.Stands ∧ History.Makes deeds before.table after.table := by
  have retains := move.retains stands
  cases move with
  | grow adds laterSound =>
      refine ⟨stands.develop laterSound retains, ?_⟩
      exact congrArg Scope.bindings (adds.scope_eq stands.isScope.lt_size)
  | write write fits =>
      have keeps := Write.keeps_run stands.sound fits (write.inside_everywhere _)
      exact ⟨stands.develop keeps.sound retains,
        Write.makes_run stands.sound stands.isScope fits⟩
  | @enterItem scope context frames a index position value isList found slot =>
      have fits : (Frame.item a position slot).Fits context.store := isList
      exact ⟨stands.enter fits, rfl⟩
  | @enterEntry scope context frames a owner key value store isScope found slot =>
      have sound : context.store.Sound := stands.sound
      obtain ⟨develops, ownerIsScope, _⟩ := entry_keeps sound isScope found
      have fits : (Frame.entry owner key slot).Fits store := ownerIsScope
      have declared : Stands ⟨scope, { context with store }, frames⟩ :=
        stands.develop develops.sound develops.grows.toRetains
      refine ⟨declared.enter fits, ?_⟩
      obtain ⟨rfl, rfl⟩ := written_of_entry sound found
      exact makes_declare stands.isScope (isScope_writer sound isScope key) key
  | @leave scope context frame frames value held =>
      have back : context.store.Retains context.store.regain := .of_payloads rfl
      have sound : context.store.regain.Sound := stands.sound.of_payloads rfl
      have fits : frame.Fits context.store.regain :=
        (stands.fits frame List.mem_cons_self).retain back
      have develops := Frame.develops_putBack sound fits (held.retain back)
      refine ⟨⟨develops.sound, retains.scopes _ stands.isScope, fun other member => ?_⟩, ?_⟩
      · exact (stands.fits other (List.mem_cons_of_mem frame member)).retain retains
      · exact makes_putBack (back.scopes _ stands.isScope) fits value
  | copy done =>
      obtain ⟨develops, freshIsScope⟩ := keeps_detach_map stands.sound stands.isScope _ _ done
      exact ⟨⟨develops.sound, freshIsScope,
        fun frame member => (stands.fits frame member).retain retains⟩,
        makes_detach stands.sound stands.isScope done⟩

/-- A run does to the bindings of the scope what its moves do, one after another. -/
theorem Chronicle.makes {history : History} (chronicle : Chronicle before history last)
    (stands : before.Stands) : last.Stands ∧ History.Makes history before.table last.table := by
  induction chronicle with
  | done scene => exact ⟨stands, rfl⟩
  | move move _ inductionHypothesis =>
      obtain ⟨stands, made⟩ := move.makes stands
      obtain ⟨lastStands, rest⟩ := inductionHypothesis stands
      exact ⟨lastStands, History.makes_append.mpr ⟨_, made, rest⟩⟩

/-! ## Changes in place as a whole -/

section InPlace

variable {ρ : Type} {context inner : Context} {frames : List Frame} {scope followed a : Addr}

theorem Chronicle.append {middle : Scene} {first second : History}
    (earlier : Chronicle before first middle) (later : Chronicle middle second last) :
    Chronicle before (first ++ second) last := by
  induction earlier with
  | done scene => exact later
  | move move _ inductionHypothesis =>
      rw [List.append_assoc]
      exact .move move (inductionHypothesis later)

theorem Move.chronicle (move : Move before deeds after) : Chronicle before deeds after := by
  rw [← List.append_nil deeds]
  exact .move move (.done after)

/-- A change in place of a binding is entering it, the run of its work, and leaving it. -/
theorem Chronicle.withEntry {owner : Addr} {key : String} {value changed : Value} {store : Store}
    (isScope : context.store.IsScope a)
    (found : context.store.entry a key = .ok (owner, value, store)) (slot : String)
    {work : Context.InPlace ρ}
    (worked : (work value { context with store := store.lend owner }).2 = (changed, inner))
    {within : History}
    (run : Chronicle
      ⟨scope, { context with store := store.lend owner }, .entry owner key slot :: frames⟩ within
      ⟨followed, inner, .entry owner key slot :: frames⟩) (held : changed.Held inner.store) :
    Chronicle ⟨scope, context, frames⟩
      (context.store.declaration scope owner key ++ within ++
        .reaching followed owner (.bind key changed))
      ⟨followed, (Context.withEntry a key work context).2, frames⟩ := by
  rw [Context.snd_withEntry found, Context.snd_lending _ worked]
  exact ((Move.enterEntry isScope found slot).chronicle.append run).append
    (Move.leave held).chronicle

theorem Chronicle.withItem {index : Index} {position : Nat} {value changed : Value}
    (isList : context.store.IsList a)
    (found : context.store.item a index = .ok (position, value)) (slot : String)
    {work : Context.InPlace ρ}
    (worked : (work value { context with store := context.store.lend a }).2 = (changed, inner))
    {within : History}
    (run : Chronicle
      ⟨scope, { context with store := context.store.lend a }, .item a position slot :: frames⟩
      within ⟨followed, inner, .item a position slot :: frames⟩)
    (held : changed.Held inner.store) :
    Chronicle ⟨scope, context, frames⟩ within
      ⟨followed, (Context.withItem a index work context).2, frames⟩ := by
  rw [Context.snd_withItem found, Context.snd_lending _ worked, ← List.append_nil within]
  exact ((Move.enterItem isList found slot).chronicle.append run).append
    (Move.leave held).chronicle

end InPlace

end Scene

/-! ## Listing -/

namespace Cursor

variable {store : Store} {a : Addr}

theorem next_keys_of_some (free : a ∉ store.lent) {position : Nat} {key : String}
    (here : (store.scope a).bindings.keys[position]? = some key) :
    Cursor.next ⟨.keys a, position⟩ store =
      .ok ((some (Value.str key), ⟨.keys a, position + 1⟩), store) := by
  have current : Cursor.current? ⟨.keys a, position⟩ store = .ok (some (Value.str key), store) := by
    simp only [current?, bindings_of_free free]
    exact congrArg (fun found : Option String => Except.ok (found.map Value.str, store)) here
  rw [next, current]
  rfl

theorem next_keys_of_none (free : a ∉ store.lent) {position : Nat}
    (beyond : (store.scope a).bindings.keys[position]? = none) :
    Cursor.next ⟨.keys a, position⟩ store = .ok ((none, ⟨.keys a, 0⟩), store) := by
  have current : Cursor.current? ⟨.keys a, position⟩ store = .ok (none, store) := by
    simp only [current?, bindings_of_free free]
    exact congrArg (fun found : Option String => Except.ok (found.map Value.str, store)) beyond
  rw [next, current]
  rfl

/-- From a position on, a cursor passes over the keys that are left and starts over. -/
theorem take_keys (free : a ∉ store.lent) (count : Nat) {position : Nat}
    (left : position + count = (store.scope a).bindings.keys.length) :
    Cursor.take (count + 1) ⟨.keys a, position⟩ store =
      .ok ((((store.scope a).bindings.keys.drop position).map Value.str, ⟨.keys a, 0⟩), store) := by
  induction count generalizing position with
  | zero =>
      have beyond : (store.scope a).bindings.keys.length ≤ position := by omega
      rw [take, next_keys_of_none free (List.getElem?_eq_none beyond),
        List.drop_of_length_le beyond]
      rfl
  | succ count inductionHypothesis =>
      have present : position < (store.scope a).bindings.keys.length := by omega
      have further : position + 1 + count = (store.scope a).bindings.keys.length := by omega
      rw [take, next_keys_of_some free (List.getElem?_eq_getElem present),
        List.drop_eq_getElem_cons present]
      show (Cursor.take (count + 1) ⟨.keys a, position + 1⟩ store >>= fun passed => Except.ok
        ((Value.str (store.scope a).bindings.keys[position] :: passed.1.1, passed.1.2),
          passed.2)) = _
      rw [inductionHypothesis further]
      rfl

theorem pass_keys (free : a ∉ store.lent) :
    Cursor.pass ⟨.keys a, 0⟩ store =
      .ok (((store.scope a).bindings.keys.map Value.str, ⟨.keys a, 0⟩), store) := by
  have length : Cursor.length ⟨.keys a, 0⟩ store = .ok (store.scope a).bindings.keys.length := by
    simp only [Cursor.length, bindings_of_free free, Table.keys, List.length_map]
    rfl
  rw [pass, length]
  exact take_keys free _ (Nat.zero_add _)

end Cursor

/-- The bindings of a scope are those that a history tells of, and so they are listed where
they can be read. -/
structure Scene.Remembers (scene : Scene) (history : History) : Prop where
  told : history.Told scene.table
  read : scene.scope ∉ scene.store.lent →
    scene.store.bindings scene.scope = .ok scene.table
  passed : scene.scope ∉ scene.store.lent → ∃ cursor,
    Cursor.over? (.map scene.scope) = some cursor ∧
      cursor.pass scene.store = .ok ((scene.table.keys.map Value.str, cursor), scene.store)

/-- The bindings of a scope that began empty are those that its history tells of. -/
theorem Session.Reached.history {session : Session} {frames : List Frame}
    (reached : session.Reached frames) {scope : Addr}
    (isScope : session.context.store.IsScope scope)
    (empty : (session.context.store.scope scope).bindings = Table.empty) {history : History}
    {last : Scene} (chronicle : Scene.Chronicle ⟨scope, session.context, frames⟩ history last) :
    last.Remembers history := by
  have stands : Scene.Stands ⟨scope, session.context, frames⟩ :=
    ⟨reached.stands.sound.context.store, isScope, reached.stands.fits⟩
  obtain ⟨_, made⟩ := chronicle.makes stands
  rw [Scene.table, empty] at made
  exact {
    told := History.told_of_makes made
    read := bindings_of_free
    passed := fun free => ⟨⟨.keys last.scope, 0⟩, rfl, Cursor.pass_keys free⟩ }

namespace Session

/-- What happens to the bindings of the inner scope: `b` is declared by a change in place, and
`a` is declared again after it has been removed. -/
def redeclaring : History :=
  [.bind "a" Value.none, .bind "b" Value.none, .bind "b" (Value.str "second"), .erase "a",
    .bind "a" (Value.str "third")]

theorem chronicle_redeclaring : ∃ last,
    Scene.Chronicle ⟨1, twoScopes.context, []⟩ redeclaring last ∧ last.table.keys = ["b", "a"] := by
  have run := Scene.Chronicle.move
    (@Scene.Move.write 1 twoScopes.context [] (.insert 1 "a" Value.none)
      ⟨⟨_, rfl⟩, Value.held_none _⟩) <|
    .move (@Scene.Move.enterEntry _ _ _ 1 _ "b" _ _ ⟨_, rfl⟩ rfl "slot") <|
    .move (.leave (Value.held_scalar _ (.str "second"))) <|
    .move (.write (.erase 1 "a") ⟨_, rfl⟩) <|
    .move (.write (.assign 1 "a" (Value.str "third")) ⟨⟨_, rfl⟩, Value.held_scalar _ _⟩) <|
    .done _
  exact ⟨_, run, rfl⟩

theorem history_redeclaring :
    twoScopes.Reachable ∧ twoScopes.context.store.IsScope 1 ∧
      (twoScopes.context.store.scope 1).bindings = Table.empty ∧
        ∃ last, Scene.Chronicle ⟨1, twoScopes.context, []⟩ redeclaring last ∧
          last.table.keys = ["b", "a"] ∧ last.Remembers redeclaring := by
  obtain ⟨last, chronicle, keys⟩ := chronicle_redeclaring
  have isScope : twoScopes.context.store.IsScope 1 := ⟨_, rfl⟩
  exact ⟨reachable_twoScopes, isScope, rfl, last, chronicle, keys,
    reachable_twoScopes.history isScope rfl chronicle⟩

end Session

end ScopedValues
