import ScopedValues.Proofs.Copies.Renewal
import ScopedValues.Proofs.Ownership.Slots
import ScopedValues.Proofs.Storage.Containers

/-!
Contract: what every operation on storage gives for what it takes.

Owns trades, in which work on storage takes addresses in hand and gives others, the rules
for putting trades together, and the trade of each operation.

Main statements: a copy is in hand with addresses of its own; a value that goes into
storage is given for nothing; a value that comes out of storage without being copied is
no longer there.

No operation is assumed to be used on addresses of the right kind.
-/

set_option autoImplicit false

namespace ScopedValues

/-- The hand of a value that may be missing. -/
def Value.handedAny (found : Option Value) : List Addr :=
  (found.getD Value.none).handed

namespace Store

/-- Whenever storage affords `given`, it then affords what the answer takes. -/
def Trades {α : Type} (store : Store) (given : List Addr) (outcome : Except Fault (α × Store))
    (taken : α → List Addr) : Prop :=
  ∀ x after, outcome = .ok (x, after) → store.Shelters after ∧
    ∀ credit, store.Affords credit given → after.Affords credit (taken x)

namespace Trades

variable {α β : Type} {store : Store} {given hand : List Addr} {taken : β → List Addr}

theorem ok {x : β} {after : Store} (shelters : store.Shelters after)
    (affords : ∀ credit, store.Affords credit given → after.Affords credit (taken x)) :
    store.Trades given (.ok (x, after)) taken := by
  intro y last same
  cases same
  exact ⟨shelters, affords⟩

theorem same {x : β} (fewer : ∀ a, (taken x).count a ≤ given.count a) :
    store.Trades given (.ok (x, store)) taken :=
  .ok (.refl store) fun _ affords => affords.mono fewer

theorem done {x : β} (exactly : taken x = given) : store.Trades given (.ok (x, store)) taken :=
  .same fun _ => Nat.le_of_eq (congrArg _ exactly)

theorem error (fault : Fault) : store.Trades given (.error fault) taken := by
  intro _ _ impossible
  cases impossible

theorem ask {question : Except Fault α} {next : α → Except Fault (β × Store)}
    (rest : ∀ x, question = .ok x → store.Trades given (next x) taken) :
    store.Trades given (question >>= next) taken := by
  intro y after ok
  obtain ⟨x, asked, ok⟩ := bind_eq_ok ok
  exact rest x asked y after ok

theorem bind {outcome : Except Fault (α × Store)} {between : α → List Addr}
    {next : α × Store → Except Fault (β × Store)} (first : store.Trades given outcome between)
    (rest : ∀ (x : α) (later : Store), later.Trades (between x) (next (x, later)) taken) :
    store.Trades given (outcome >>= next) taken := by
  intro y after ok
  obtain ⟨⟨x, later⟩, done, ok⟩ := bind_eq_ok ok
  obtain ⟨shelters, affords⟩ := first x later done
  obtain ⟨further, more⟩ := rest x later y after ok
  exact ⟨shelters.trans further, fun credit enough => more credit (affords credit enough)⟩

/-- What is set aside is there afterwards. -/
theorem frame {outcome : Except Fault (β × Store)} (trades : store.Trades given outcome taken)
    (reserve : List Addr) :
    store.Trades (reserve ++ given) outcome fun x => reserve ++ taken x := by
  intro x after done
  obtain ⟨shelters, affords⟩ := trades x after done
  exact ⟨shelters, fun credit enough => affords_less.mp (affords _ (affords_less.mpr enough))⟩

/-- Work that needs nothing leaves what is in hand. -/
theorem aside {outcome : Except Fault (β × Store)} (trades : store.Trades [] outcome taken)
    (reserve : List Addr) : store.Trades reserve outcome fun x => reserve ++ taken x := by
  have framed := trades.frame reserve
  rwa [List.append_nil] at framed

theorem mono {outcome : Except Fault (β × Store)} {fewer : β → List Addr}
    (trades : store.Trades given outcome taken)
    (less : ∀ x a, (fewer x).count a ≤ (taken x).count a) :
    store.Trades given outcome fewer := by
  intro x after done
  obtain ⟨shelters, affords⟩ := trades x after done
  exact ⟨shelters, fun credit enough => (affords credit enough).mono (less x)⟩

theorem drop {outcome : Except Fault (β × Store)} (trades : store.Trades given outcome taken) :
    store.Trades given outcome fun _ => [] :=
  trades.mono fun _ _ => by simp

end Trades

variable {store : Store}

theorem trades_allocate (store : Store) (payload : Payload) :
    store.Trades payload.handed (.ok (store.allocate payload)) fun made => [made] :=
  .ok (shelters_allocate store payload) fun _ affords => affords.allocate

theorem trades_write {β : Type} {a : Addr} (free : a ∉ store.lent) {payload : Payload}
    {given : List Addr} {x : β} {taken : β → List Addr}
    (exchange : ∀ c, payload.handed.count c + (taken x).count c ≤
      (store.handed a).count c + given.count c) :
    store.Trades given (.ok (x, store.write a payload)) taken :=
  .ok (shelters_write free payload) fun _ affords => affords.write exchange

/-! ## Copies -/

section Copies

variable {fresh : Addr → StoreM Addr}

theorem trades_mapM {work : Value → StoreM Value} {names : Value → List Addr} {items : List Value}
    (each : ∀ item ∈ items, ∀ store, Trades store [] (work item store) names) :
    ∀ store, Trades store [] (items.mapM work store) fun copies => copies.flatMap names := by
  induction items with
  | nil => exact fun store => .same (by simp)
  | cons item rest inductionHypothesis =>
      intro store
      rw [List.forall_mem_cons] at each
      rw [List.mapM_cons]
      refine (each.1 store).bind fun copy later => ?_
      refine ((inductionHypothesis each.2 later).aside (names copy)).bind fun copies last => ?_
      exact .same (by simp)

/-- Every address that a deep copy has is made for it. -/
theorem trades_renew (detaches : ∀ a store, Trades store [] (fresh a store) fun b => [b])
    (value : Value) : ∀ store, Trades store [] (value.renew fresh store) Value.addresses := by
  induction value with
  | scalar x => exact fun store => .same (by simp [Value.addresses_scalar])
  | tuple items inductionHypothesis =>
      intro store
      rw [Value.renew, renewAll_eq_mapM]
      exact (trades_mapM inductionHypothesis store).bind fun copies later => .same (by simp)
  | list a => exact fun store => (detaches a store).bind fun b later => .same (by simp)
  | map a => exact fun store => (detaches a store).bind fun b later => .same (by simp)

theorem trades_renewTuple (detaches : ∀ a store, Trades store [] (fresh a store) fun b => [b])
    (value : Value) : ∀ store, Trades store [] (value.renewTuple fresh store) Value.handed := by
  intro store
  cases value with
  | scalar x => exact .same (by simp [Value.handed])
  | tuple items =>
      exact (trades_renew detaches (.tuple items) store).mono fun copy a =>
        copy.count_handed_le a
  | list a => exact .same (by simp [Value.handed])
  | map a => exact .same (by simp [Value.handed])

theorem trades_renewTuples (detaches : ∀ a store, Trades store [] (fresh a store) fun b => [b])
    (payload : Payload) :
    ∀ store, Trades store [] (payload.renewTuples fresh store) Payload.handed := by
  intro store
  cases payload with
  | list items =>
      refine (trades_mapM (fun item _ => trades_renewTuple detaches item) store).bind ?_
      exact fun copies later => .done rfl
  | scope inner =>
      intro contents after ok
      obtain ⟨entries, _, renewed, ok⟩ := StoreM.bind_ok ok
      obtain ⟨rfl, rfl⟩ := StoreM.pure_ok ok
      obtain ⟨_, values⟩ := mapM_entries_ok renewed
      exact trades_mapM (fun value _ => trades_renewTuple detaches value) store _ _ values

/-- Whatever the fuel, a detachment makes the address that it gives. -/
theorem trades_detachWithin (fuel : Nat) :
    ∀ a store, Trades store [] (detachWithin fuel a store) fun b => [b] := by
  induction fuel with
  | zero => exact fun a store => .error _
  | succ fuel inductionHypothesis =>
      intro a store b after ok
      obtain ⟨_, contents, middle, renewed, rfl, rfl⟩ := detachWithin_ok ok
      have copied := trades_renewTuples inductionHypothesis _ store _ _ renewed
      have made := trades_allocate middle contents _ _ rfl
      exact ⟨copied.1.trans made.1, fun credit enough => made.2 credit (copied.2 credit enough)⟩

theorem trades_copy (store : Store) (value : Value) :
    store.Trades [] (store.copy value) Value.handed :=
  trades_renewTuple (trades_detachWithin store.size) value store

theorem trades_deepCopy (store : Store) (value : Value) :
    store.Trades [] (store.deepCopy value) Value.addresses :=
  trades_renew (trades_detachWithin store.size) value store

theorem trades_deepCopyAll (store : Store) (values : List Value) :
    store.Trades [] (store.deepCopyAll values) fun copies => copies.flatMap Value.addresses := by
  have each : ∀ value ∈ values, ∀ later,
      Trades later [] (value.renew (detachWithin store.size) later) Value.addresses :=
    fun value _ => trades_renew (trades_detachWithin store.size) value
  have all := trades_mapM each store
  rwa [← renewAll_eq_mapM] at all

theorem trades_detach (store : Store) (a : Addr) :
    store.Trades [] (store.detach a) fun b => [b] :=
  trades_detachWithin store.size a store

end Copies

/-! ## Lists -/

section Lists

variable (store) (a : Addr)

theorem trades_newList (items : List Value) :
    store.Trades (items.flatMap Value.handed) (.ok (store.newList items)) fun made => [made] :=
  trades_allocate store (.list items)

theorem trades_listOfTuple (value : Value) :
    store.Trades [] (store.listOfTuple value) fun made => [made] := by
  cases value with
  | tuple items =>
      refine ((trades_deepCopyAll store items).mono fun copies c => ?_).bind
        fun copies later => trades_newList later copies
      exact Value.count_handedAll_le c copies
  | scalar x => exact .error _
  | list b => exact .error _
  | map b => exact .error _

theorem trades_getItem (index : Index) : store.Trades [] (store.getItem a index) Value.handed :=
  .ask fun _ _ => .ask fun _ _ => trades_copy store _

theorem free_of_bindings {table : Table Value} (read : store.bindings a = .ok table) :
    a ∉ store.lent := by
  obtain ⟨inner, scopeRead, _⟩ := bind_eq_ok read
  rw [readScope_eq] at scopeRead
  split at scopeRead
  · cases scopeRead
  · assumption

theorem trades_setItems {β : Type} (free : a ∉ store.lent) {changed : List Value}
    {given : List Addr} {x : β} {taken : β → List Addr}
    (exchange : ∀ c, (changed.flatMap Value.handed).count c + (taken x).count c ≤
      ((store.items a).flatMap Value.handed).count c + given.count c) :
    store.Trades given (.ok (x, store.setItems a changed)) taken := by
  refine @trades_write store β a free (.list changed) given x taken fun c => ?_
  have traded := exchange c
  have stored := count_items_le c store a
  show (changed.flatMap Value.handed).count c + _ ≤ _
  omega

theorem item_free {index : Index} {position : Nat} {value : Value}
    (found : store.item a index = .ok (position, value)) : a ∉ store.lent := by
  obtain ⟨items, read, _⟩ := bind_eq_ok found
  exact free_of_readList read

theorem trades_setItem (index : Index) (value : Value) :
    store.Trades value.handed (store.setItem a index value) Value.handed := by
  apply Trades.ask
  intro answer found
  obtain ⟨position, old⟩ := answer
  apply trades_setItems store a (item_free store a found)
  intro c
  rw [item_eq_ok found]
  exact count_set c (store.items a) position value

theorem trades_push (value : Value) {after : Store} (done : store.push a value = .ok after) :
    store.Trades value.handed (.ok ((), after)) fun _ => [] := by
  obtain ⟨items, read, done⟩ := bind_eq_ok done
  cases done
  rw [readList_eq_items read]
  exact trades_setItems store a (free_of_readList read) fun c => by simp

theorem trades_pop (index : Option Index) :
    store.Trades [] (store.pop a index) Value.handed := by
  apply Trades.ask
  intro items read
  apply Trades.ask
  intro position _
  apply trades_setItems store a (free_of_readList read)
  intro c
  rw [readList_eq_items read]
  exact Nat.le_of_eq (count_eraseIdx c (store.items a) position)

end Lists

/-! ## Scopes -/

section Scopes

variable (store) (a : Addr)

theorem trades_newRoot : store.Trades [] (.ok store.newRoot) fun made => [made] :=
  trades_allocate store (.scope ⟨Table.empty, none⟩)

theorem trades_newChild (parent : Addr) :
    store.Trades [] (.ok (store.newChild parent)) fun made => [made] :=
  trades_allocate store (.scope ⟨Table.empty, some parent⟩)

theorem trades_find (key : String) :
    store.Trades [] (store.find a key) Value.handedAny := by
  apply Trades.ask
  intro table _
  cases table.get? key with
  | none => exact .done rfl
  | some value =>
      exact (trades_copy store value).bind fun copy later => .done rfl

theorem trades_findAlong (key : String) (scopes : List Addr) :
    store.Trades [] (store.findAlong key scopes) Value.handedAny := by
  induction scopes with
  | nil => exact .done rfl
  | cons inner outer inductionHypothesis =>
      -- A scope that answers ends the search; the others leave storage as it is.
      intro found after ok
      obtain ⟨⟨here, later⟩, searched, ok⟩ := bind_eq_ok ok
      cases here with
      | some value =>
          cases ok
          exact trades_find store inner key _ _ searched
      | none => exact inductionHypothesis found after ok

theorem trades_lookup (key : String) :
    store.Trades [] (store.lookup a key) Value.handedAny :=
  trades_findAlong store key (store.chain a)

theorem trades_setBindings {β : Type} (free : a ∉ store.lent) {changed : Table Value}
    {given : List Addr} {x : β} {taken : β → List Addr}
    (exchange : ∀ c, changed.handed.count c + (taken x).count c ≤
      (store.scope a).bindings.handed.count c + given.count c) :
    store.Trades given (.ok (x, store.setBindings a changed)) taken := by
  refine @trades_write store β a free (.scope ⟨changed, (store.scope a).parent⟩) given x taken
    fun c => ?_
  have traded := exchange c
  have stored := count_bindings_le c store a
  show changed.handed.count c + _ ≤ _
  omega

theorem trades_insert (key : String) (value : Value) :
    store.Trades value.handed (store.insert a key value) Value.handedAny := by
  apply Trades.ask
  intro table read
  apply trades_setBindings store a (free_of_bindings store a read)
  intro c
  rw [bindings_eq_ok read]
  exact Nat.le_of_eq (Table.count_insert c _ key value)

theorem trades_erase (key : String) :
    store.Trades [] (store.erase a key) Value.handedAny := by
  apply Trades.ask
  intro table read
  apply trades_setBindings store a (free_of_bindings store a read)
  intro c
  rw [bindings_eq_ok read]
  exact Nat.le_of_eq (Table.count_erase c _ key)

theorem trades_assign (key : String) (value : Value) {after : Store}
    (done : store.assign a key value = .ok after) :
    store.Trades value.handed (.ok ((), after)) fun _ => [] := by
  obtain ⟨owner, _, done⟩ := bind_eq_ok done
  obtain ⟨table, read, done⟩ := bind_eq_ok done
  cases done
  apply trades_setBindings store _ (free_of_bindings store _ read)
  intro c
  rw [bindings_eq_ok read, ← Table.count_insert c _ key value]
  simp

end Scopes

/-! ## Places that a change works on -/

theorem scope_of_absent (store : Store) {a : Addr} (beyond : store.size ≤ a) :
    store.scope a = ⟨Table.empty, none⟩ := by
  have missing : store.payloads[a]? = none := Array.getElem?_eq_none beyond
  simp only [scope, missing]

/-- A place in the payload at `a`, given by how its value is read and how one is put back. -/
structure Gap (a : Addr) (read : Store → Value) (putBack : Store → Value → Store) : Prop where
  stays : ∀ before after : Store, after.payloads[a]? = before.payloads[a]? →
    read after = read before
  absent : ∀ store : Store, store.size ≤ a → (read store).handed = []
  exchange : ∀ store value, ∃ payload, putBack store value = store.write a payload ∧
    ∀ c, payload.handed.count c + (read store).handed.count c ≤
      (store.handed a).count c + value.handed.count c

theorem gap_position (a : Addr) (position : Nat) :
    Gap a (fun store => (store.items a).getD position Value.none)
      (fun store value => store.setPosition a position value) where
  stays before after same := by simp only [items, same]
  absent store beyond := by
    have missing : store.payloads[a]? = none := Array.getElem?_eq_none beyond
    simp [items, missing, Value.none, Value.handed]
  exchange store value := by
    refine ⟨.list ((store.items a).set position value), rfl, fun c => ?_⟩
    have exchanged := count_set c (store.items a) position value
    have stored := count_items_le c store a
    show (((store.items a).set position value).flatMap Value.handed).count c + _ ≤ _
    omega

theorem gap_entry (a : Addr) (key : String) :
    Gap a (fun store => ((store.scope a).bindings.get? key).getD Value.none)
      (fun store value => store.setEntry a key value) where
  stays before after same := by simp only [scope, same]
  absent store beyond := by rw [scope_of_absent store beyond]; rfl
  exchange store value := by
    refine ⟨.scope ⟨(store.scope a).bindings.insert key value, (store.scope a).parent⟩, rfl,
      fun c => ?_⟩
    have exchanged := Table.count_insert c (store.scope a).bindings key value
    have stored := count_bindings_le c store a
    show ((store.scope a).bindings.insert key value).handed.count c + _ ≤ _
    omega

section Gaps

variable {a : Addr} {read : Store → Value} {putBack : Store → Value → Store}
  {before after : Store} {value : Value} {credit : Credit} {hand : List Addr}

/-- What a place that is put back held on credit is paid for by its old value. -/
theorem Gap.pay (gap : Gap a read putBack) {debt : List Addr}
    (owed : ∀ c, debt.count c ≤ (read after).handed.count c)
    (affords : after.Affords (credit.more debt) (value.handed ++ hand)) :
    (putBack after value).Affords credit hand := by
  obtain ⟨payload, same, exchanged⟩ := gap.exchange after value
  rw [same]
  refine affords_more.mp (affords.write fun c => ?_)
  have traded := exchanged c
  have paid := owed c
  simp only [List.count_append]
  omega

/-- After the storage of a place has been lent out, the place is put back as it was found. -/
theorem Gap.close (gap : Gap a read putBack) (free : a ∉ before.lent)
    (shelters : (before.lend a).Shelters after)
    (affords : after.Affords (credit.more (read before).handed) (value.handed ++ hand)) :
    before.Shelters (putBack after.regain value) ∧
      (putBack after.regain value).Affords credit hand := by
  have owed : ∀ c, (read before).handed.count c ≤ (read after.regain).handed.count c := by
    intro c
    by_cases present : a < before.size
    · rw [gap.stays before after.regain (shelters.kept a List.mem_cons_self present)]
    · rw [gap.absent before (Nat.le_of_not_lt present)]
      simp
  refine ⟨?_, gap.pay owed affords⟩
  obtain ⟨payload, same, _⟩ := gap.exchange after.regain value
  rw [same]
  refine ⟨?_, ?_, ?_⟩
  · simpa [Store.write, Store.size, regain] using shelters.size
  · show after.lent.tail = before.lent
    rw [shelters.lent]
    rfl
  · intro b lent present
    have different : a ≠ b := fun same => free (same ▸ lent)
    have kept := shelters.kept b (List.mem_cons_of_mem a lent) present
    simpa [Store.write, regain, different] using kept

/-- Declaring a key opens a place, which is free and holds the value that was found. -/
theorem entry_opens (store : Store) (a : Addr) {key : String} {owner : Addr} {value : Value}
    {after : Store} (found : store.entry a key = .ok (owner, value, after)) :
    store.Shelters after ∧
      (∀ credit hand, store.Affords credit hand → after.Affords credit hand) ∧
      owner ∉ after.lent ∧ value = ((after.scope owner).bindings.get? key).getD Value.none := by
  obtain ⟨nearest, _, found⟩ := bind_eq_ok found
  obtain ⟨table, read, found⟩ := bind_eq_ok found
  have free := free_of_bindings store _ read
  rw [bindings_eq_ok read] at found
  cases found
  have declares : ∀ hand : List Addr, store.Trades hand
      (.ok ((), store.setBindings (nearest.getD a)
        ((store.scope (nearest.getD a)).bindings.declare key Value.none))) fun _ => hand := by
    intro hand
    apply trades_setBindings store _ free
    intro c
    rw [Table.handed_declare]
  refine ⟨(declares [] () _ rfl).1, fun credit hand => (declares hand () _ rfl).2 credit, free, ?_⟩
  by_cases present : nearest.getD a < store.size
  · rw [scope_setBindings_self store _ _ present]
  · have beyond : store.size ≤ nearest.getD a := Nat.le_of_not_lt present
    rw [scope_of_absent store beyond, scope_of_absent _ (by rwa [size_setBindings])]
    simp [Table.declare, Table.contains, Table.empty, Table.get?]

end Gaps
end Store

/-! ## Cursors -/

namespace Cursor

open Store

variable (store : Store) (cursor : Cursor)

theorem trades_current? : store.Trades [] (cursor.current? store) Value.handedAny := by
  obtain ⟨walked, position⟩ := cursor
  cases walked with
  | elements a =>
      apply Trades.ask
      intro items _
      cases items[position]? with
      | none => exact .done rfl
      | some value =>
          exact (trades_copy store value).bind fun copy later => .done rfl
  | keys a =>
      apply Trades.ask
      intro table _
      refine .same fun c => ?_
      cases table.keys[position]? <;> exact Nat.le_refl _

theorem trades_next :
    store.Trades [] (cursor.next store) fun answer => Value.handedAny answer.1 := by
  refine (trades_current? store cursor).bind fun found later => ?_
  cases found with
  | none => exact .done rfl
  | some value => exact .done rfl

theorem trades_take (count : Nat) : store.Trades [] (cursor.take count store) fun _ => [] := by
  induction count generalizing cursor store with
  | zero => exact .done rfl
  | succ count inductionHypothesis =>
      refine (trades_next store cursor).drop.bind fun answer later => ?_
      obtain ⟨found, moved⟩ := answer
      cases found with
      | none => exact .done rfl
      | some value =>
          exact (inductionHypothesis later moved).bind fun _ last => .done rfl

theorem trades_pass : store.Trades [] (cursor.pass store) fun _ => [] :=
  .ask fun length _ => trades_take store cursor (length + 1)

end Cursor

end ScopedValues
