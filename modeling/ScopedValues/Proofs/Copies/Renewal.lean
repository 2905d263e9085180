import ScopedValues.Proofs.Copies.Discipline

/-!
Contract: what making a copy does to storage.

Owns the account of the storage that a copy adds, its composition, and the proof that
the functions that renew addresses make copies and keep the account.

Main statement: `Store.detachWithin`, whatever its fuel, adds a copy of what it
detaches; every address it adds is named once, by the result or by what it adds.
-/

set_option autoImplicit false

namespace ScopedValues

/-! ## Work on storage that succeeds -/

namespace StoreM

variable {α β : Type}

theorem bind_ok {work : StoreM α} {next : α → StoreM β} {store : Store} {result : β × Store}
    (ok : (work >>= next) store = .ok result) :
    ∃ x middle, work store = .ok (x, middle) ∧ next x middle = .ok result := by
  change (work store >>= fun pair => next pair.1 pair.2) = .ok result at ok
  cases done : work store with
  | error fault => rw [done] at ok; cases ok
  | ok pair => rw [done] at ok; exact ⟨pair.1, pair.2, rfl, ok⟩

theorem bind_eq {work : StoreM α} {next : α → StoreM β} {store middle : Store} {x : α}
    (done : work store = .ok (x, middle)) : (work >>= next) store = next x middle := by
  show (work store >>= fun pair => next pair.1 pair.2) = next x middle
  rw [done]
  rfl

theorem pure_ok {x y : α} {store after : Store}
    (ok : (pure x : StoreM α) store = .ok (y, after)) : y = x ∧ after = store := by
  cases ok
  exact ⟨rfl, rfl⟩

end StoreM

/-! ## The account of added storage -/

/-- The addresses that a copy made in this way has from its own allocations. -/
def CopyMode.renewed (mode : CopyMode) (copy : Value) : List Addr :=
  match mode with
  | .plain => copy.handed
  | .deep => copy.addresses

namespace Store

/--
Every address added on the way from `before` to `after` is named exactly once, among
`names` and by the tuples in the payloads that were added.
-/
def NamesOnce (before after : Store) (names : List Addr) : Prop :=
  (names ++ (added before after).flatMap after.handed).Perm (added before after)

/-- What a copy with the addresses `names` does to storage. -/
structure Renewal (before after : Store) (names : List Addr) : Prop where
  extension : before.Extends after
  once : NamesOnce before after names
  sound : before.Sound → after.Sound

theorem Renewal.refl (store : Store) : Renewal store store [] where
  extension := .refl store
  once := by simp [NamesOnce]
  sound := id

theorem Extends.handed_eq {before after : Store} (extension : before.Extends after) {a : Addr}
    (present : a < before.size) : after.handed a = before.handed a := by
  rw [handed, handed, extension.values_eq present]

theorem Extends.flatMap_handed {middle after : Store} (extension : middle.Extends after)
    (before : Store) :
    (added before middle).flatMap after.handed =
      (added before middle).flatMap middle.handed := by
  rw [List.flatMap_def, List.flatMap_def,
    List.map_congr_left fun a member => extension.handed_eq (mem_added.mp member).2]

theorem Renewal.trans {before middle after : Store} {names more : List Addr}
    (first : Renewal before middle names) (second : Renewal middle after more) :
    Renewal before after (names ++ more) where
  extension := first.extension.trans second.extension
  once := by
    have here := first.once
    have there := second.once
    have split := added_append first.extension.size second.extension.size
    have kept := second.extension.flatMap_handed before
    rw [NamesOnce] at here there ⊢
    rw [← split, List.flatMap_append, kept]
    rw [List.perm_iff_count] at here there ⊢
    intro a
    have countHere := here a
    have countThere := there a
    simp only [List.count_append] at countHere countThere ⊢
    omega
  sound before := second.sound (first.sound before)

/-- A payload whose tuples name what was added can be added itself. -/
theorem Renewal.allocate {before middle : Store} {payload : Payload}
    (renewal : Renewal before middle (payload.values.flatMap Value.handed))
    (fits : before.Sound → payload.Fits middle) :
    Renewal before (middle.allocate payload).2 [middle.size] where
  extension := renewal.extension.trans (extends_allocate middle payload)
  once := by
    have last : added middle (middle.allocate payload).2 = [middle.size] := by
      simp [added]
    have split := added_append renewal.extension.size (extends_allocate middle payload).size
    have kept := (extends_allocate middle payload).flatMap_handed before
    have own : (middle.allocate payload).2.handed middle.size =
        payload.values.flatMap Value.handed := by
      exact congrArg _ (values_of_payload (payload_allocate_self middle payload))
    have here := renewal.once
    rw [NamesOnce] at here ⊢
    rw [← split, last, List.flatMap_append, kept]
    rw [List.perm_iff_count] at here ⊢
    intro a
    have countHere := here a
    simp only [List.count_append, List.flatMap_cons, List.flatMap_nil, own,
      List.append_nil] at countHere ⊢
    omega
  sound sound := sound_allocate (renewal.sound sound) (fits sound)

/-! ## Work that copies -/

/-- On storage that extends `old`, `work` can only make a copy of `value`. -/
def Copies (old : Store) (mode : CopyMode) (work : StoreM Value) (value : Value) : Prop :=
  ∀ store copy after, old.Extends store → work store = .ok (copy, after) →
    store.Renewal after (mode.renewed copy) ∧ Copied old after mode value copy

/-- `fresh` can only give lists and maps storage of their own with copied contents. -/
structure Detaches (old : Store) (fresh : Addr → StoreM Addr) : Prop where
  list : ∀ a, old.IsList a → Copies old .deep (do return .list (← fresh a)) (.list a)
  map : ∀ a, old.IsScope a → Copies old .deep (do return .map (← fresh a)) (.map a)

theorem copies_mapM {old : Store} {mode : CopyMode} {work : Value → StoreM Value}
    {items : List Value} (each : ∀ item ∈ items, Copies old mode (work item) item) :
    ∀ store copies after, old.Extends store → items.mapM work store = .ok (copies, after) →
      store.Renewal after (copies.flatMap mode.renewed) ∧
        CopiedAll old after mode items copies := by
  induction items with
  | nil =>
      intro store copies after _ ok
      obtain ⟨rfl, rfl⟩ := StoreM.pure_ok ok
      exact ⟨.refl _, .nil mode⟩
  | cons item rest inductionHypothesis =>
      intro store copies after extension ok
      rw [List.forall_mem_cons] at each
      rw [List.mapM_cons] at ok
      obtain ⟨copy, middle, first, ok⟩ := StoreM.bind_ok ok
      obtain ⟨others, last, second, ok⟩ := StoreM.bind_ok ok
      obtain ⟨rfl, rfl⟩ := StoreM.pure_ok ok
      obtain ⟨renewal, copied⟩ := each.1 store copy middle extension first
      obtain ⟨renewals, copiedAll⟩ := inductionHypothesis each.2 middle others _
        (extension.trans renewal.extension) second
      rw [List.flatMap_cons]
      exact ⟨renewal.trans renewals, .cons (copied.extend renewals.extension) copiedAll⟩

theorem renewAll_eq_mapM (fresh : Addr → StoreM Addr) (items : List Value) :
    Value.renewAll fresh items = items.mapM (Value.renew fresh) := by
  induction items with
  | nil => rfl
  | cons item rest inductionHypothesis =>
      rw [List.mapM_cons, Value.renewAll, inductionHypothesis]

section Renew

variable {old : Store} {fresh : Addr → StoreM Addr}

theorem renew_copies (detaches : Detaches old fresh) (value : Value) (held : value.Held old) :
    Copies old .deep (value.renew fresh) value := by
  induction value with
  | scalar x =>
      intro store copy after _ ok
      obtain ⟨rfl, rfl⟩ := StoreM.pure_ok ok
      exact ⟨.refl _, .scalar _ x⟩
  | tuple items inductionHypothesis =>
      intro store copy after extension ok
      rw [Value.held_tuple] at held
      rw [Value.renew, renewAll_eq_mapM] at ok
      obtain ⟨copies, middle, renewed, ok⟩ := StoreM.bind_ok ok
      obtain ⟨rfl, rfl⟩ := StoreM.pure_ok ok
      obtain ⟨renewal, copied⟩ := copies_mapM
        (fun item member => inductionHypothesis item member (held item member))
        store copies _ extension renewed
      refine ⟨?_, .tuple copied⟩
      rw [CopyMode.renewed, Value.addresses_tuple]
      exact renewal
  | list a => exact detaches.list a ((Value.held_list old a).mp held)
  | map a => exact detaches.map a ((Value.held_map old a).mp held)

theorem renewTuple_copies (detaches : Detaches old fresh) (value : Value)
    (held : value.Held old) : Copies old .plain (value.renewTuple fresh) value := by
  intro store copy after extension ok
  cases value with
  | scalar x =>
      obtain ⟨rfl, rfl⟩ := StoreM.pure_ok ok
      exact ⟨.refl _, .scalar _ x⟩
  | tuple items =>
      obtain ⟨renewal, copied⟩ := renew_copies detaches (.tuple items) held store copy after
        extension ok
      cases copied with
      | tuple elements => exact ⟨renewal, .tuple elements⟩
  | list a =>
      obtain ⟨rfl, rfl⟩ := StoreM.pure_ok ok
      exact ⟨.refl _, .sharedList a⟩
  | map a =>
      obtain ⟨rfl, rfl⟩ := StoreM.pure_ok ok
      exact ⟨.refl _, .sharedMap a⟩

theorem mapM_entries_ok {work : Value → StoreM Value} {entries copies : List (String × Value)} :
    ∀ {store after : Store},
      (entries.mapM fun entry : String × Value => do return (entry.1, ← work entry.2)) store =
        .ok (copies, after) →
      copies.map Prod.fst = entries.map Prod.fst ∧
        (entries.map Prod.snd).mapM work store = .ok (copies.map Prod.snd, after) := by
  induction entries generalizing copies with
  | nil =>
      intro store after ok
      obtain ⟨rfl, rfl⟩ := StoreM.pure_ok ok
      exact ⟨rfl, rfl⟩
  | cons entry rest inductionHypothesis =>
      intro store after ok
      rw [List.mapM_cons] at ok
      obtain ⟨copy, middle, first, ok⟩ := StoreM.bind_ok ok
      obtain ⟨value, _, worked, first⟩ := StoreM.bind_ok first
      obtain ⟨rfl, rfl⟩ := StoreM.pure_ok first
      obtain ⟨others, _, second, ok⟩ := StoreM.bind_ok ok
      obtain ⟨rfl, rfl⟩ := StoreM.pure_ok ok
      obtain ⟨keys, values⟩ := inductionHypothesis second
      refine ⟨by rw [List.map_cons, List.map_cons, keys], ?_⟩
      rw [List.map_cons, List.map_cons, List.mapM_cons, StoreM.bind_eq worked,
        StoreM.bind_eq values]
      rfl

/-- The step of a detachment: the contents are renewed first, and then put behind them. -/
theorem detachWithin_of_free {store : Store} {a : Addr} (free : a ∉ store.lent) (fuel : Nat) :
    detachWithin (fuel + 1) a store =
      ((store.payloads[a]?.getD default).renewTuples (detachWithin fuel) >>= fun contents =>
        modifyGet (·.allocate contents)) store := by
  have read : store.readPayload a = .ok (store.payloads[a]?.getD default) := by
    rw [readPayload, (free_eq_ok_iff store a).mpr free]
    rfl
  show (store.readPayload a >>= fun payload => .ok (payload, store) : Except Fault _) >>= _ = _
  rw [read]
  rfl

theorem detachWithin_of_lent {store : Store} {a : Addr} (lent : a ∈ store.lent) (fuel : Nat) :
    detachWithin (fuel + 1) a store = .error .conflict := by
  have read : store.readPayload a = .error .conflict := by
    simp [readPayload, free, lent, bind, Except.bind]
  show (store.readPayload a >>= fun payload => .ok (payload, store) : Except Fault _) >>= _ = _
  rw [read]
  rfl

theorem detachWithin_ok {fuel : Nat} {a b : Addr} {store after : Store}
    (ok : detachWithin (fuel + 1) a store = .ok (b, after)) :
    a ∉ store.lent ∧ ∃ contents middle,
      (store.payloads[a]?.getD default).renewTuples (detachWithin fuel) store =
        .ok (contents, middle) ∧
      b = middle.size ∧ after = (middle.allocate contents).2 := by
  by_cases lent : a ∈ store.lent
  · rw [detachWithin_of_lent lent] at ok
    cases ok
  · rw [detachWithin_of_free lent] at ok
    obtain ⟨contents, middle, renewed, ok⟩ := StoreM.bind_ok ok
    cases ok
    exact ⟨lent, contents, middle, renewed, rfl, rfl⟩

theorem renewTuples_list_copies (detaches : Detaches old fresh) {store middle : Store}
    {items : List Value} {contents : Payload} (extension : old.Extends store)
    (held : ∀ item ∈ items, item.Held old)
    (ok : (Payload.list items).renewTuples fresh store = .ok (contents, middle)) :
    ∃ copies, contents = .list copies ∧
      store.Renewal middle (copies.flatMap Value.handed) ∧
      CopiedAll old middle .plain items copies := by
  obtain ⟨copies, _, renewed, ok⟩ := StoreM.bind_ok ok
  obtain ⟨rfl, rfl⟩ := StoreM.pure_ok ok
  exact ⟨copies, rfl, copies_mapM
    (fun item member => renewTuple_copies detaches item (held item member))
    store copies _ extension renewed⟩

theorem renewTuples_scope_copies (detaches : Detaches old fresh) {store middle : Store}
    {inner : Scope} {contents : Payload} (extension : old.Extends store)
    (held : ∀ value ∈ inner.bindings.entries.map Prod.snd, value.Held old)
    (ok : (Payload.scope inner).renewTuples fresh store = .ok (contents, middle)) :
    ∃ copy : Scope, contents = .scope copy ∧ copy.parent = inner.parent ∧
      copy.bindings.keys = inner.bindings.keys ∧
      store.Renewal middle ((copy.bindings.entries.map Prod.snd).flatMap Value.handed) ∧
      CopiedAll old middle .plain
        (inner.bindings.entries.map Prod.snd) (copy.bindings.entries.map Prod.snd) := by
  obtain ⟨entries, _, renewed, ok⟩ := StoreM.bind_ok ok
  obtain ⟨rfl, rfl⟩ := StoreM.pure_ok ok
  obtain ⟨keys, values⟩ := mapM_entries_ok renewed
  exact ⟨⟨⟨entries⟩, inner.parent⟩, rfl, rfl, keys, copies_mapM
    (fun value member => renewTuple_copies detaches value (held value member))
    store _ _ extension values⟩

/-- Whatever the fuel, a detachment that comes to an end makes a copy. -/
theorem detaches_detachWithin (typed : old.Typed) (fuel : Nat) :
    Detaches old (detachWithin fuel) := by
  induction fuel with
  | zero =>
      constructor
      all_goals
        intro a _ store copy after _ ok
        obtain ⟨b, middle, impossible, _⟩ := StoreM.bind_ok ok
        cases impossible
  | succ fuel inductionHypothesis =>
      constructor
      · intro a isList store copy after extension ok
        obtain ⟨b, _, detached, ok⟩ := StoreM.bind_ok ok
        obtain ⟨rfl, rfl⟩ := StoreM.pure_ok ok
        obtain ⟨free, contents, middle, renewed, rfl, rfl⟩ := detachWithin_ok detached
        obtain ⟨items, source⟩ := isList
        have held : ∀ item ∈ items, item.Held old := fun item member =>
          typed.held a item (by rwa [values_of_payload source])
        rw [extension.payload source] at renewed
        obtain ⟨copies, rfl, renewal, copied⟩ :=
          renewTuples_list_copies inductionHypothesis extension held renewed
        have all := extension.trans renewal.extension
        refine ⟨renewal.allocate fun _ => Payload.fits_list (copied.held all held), ?_⟩
        rw [extension.lent] at free
        exact .freshList free source (payload_allocate_self middle _) all.size
          (copied.extend (extends_allocate middle _))
      · intro a isScope store copy after extension ok
        obtain ⟨b, _, detached, ok⟩ := StoreM.bind_ok ok
        obtain ⟨rfl, rfl⟩ := StoreM.pure_ok ok
        obtain ⟨free, contents, middle, renewed, rfl, rfl⟩ := detachWithin_ok detached
        obtain ⟨inner, source⟩ := isScope
        have held : ∀ value ∈ inner.bindings.entries.map Prod.snd, value.Held old :=
          fun value member => typed.held a value (by rwa [values_of_payload source])
        have there := extension.payload source
        rw [there] at renewed
        obtain ⟨copy, rfl, parent, keys, renewal, copied⟩ :=
          renewTuples_scope_copies inductionHypothesis extension held renewed
        have all := extension.trans renewal.extension
        have inStore : store.scope a = inner := by simp only [scope, there]
        refine ⟨renewal.allocate fun sound =>
          Payload.fits_scope (copied.held all held) ?_ ?_, ?_⟩
        · intro outer enclosed
          have isScope := (sound.parents a outer (by rw [inStore, ← parent, enclosed])).1
          exact renewal.extension.grows.scopes outer isScope
        · rw [keys, ← inStore]
          exact sound.keys a
        · rw [extension.lent] at free
          exact .freshMap free source (payload_allocate_self middle _) all.size parent keys
            (copied.extend (extends_allocate middle _))

end Renew

end Store

end ScopedValues
