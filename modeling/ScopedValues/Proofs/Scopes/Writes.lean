import ScopedValues.Proofs.Scopes.Chain

/-!
Contract: how a write of one table is seen through every chain.

Owns the order of a chain, the writes that concern one key, and what every scope
resolves a key to after such a write.

Main statements: a chain meets no scope twice; a write is seen along a chain exactly
where no nearer scope binds the key.
-/

set_option autoImplicit false

namespace ScopedValues.Store

/-! ## The order of a chain -/

theorem le_of_mem_chain {store : Store} (sound : store.Sound) {a scope : Nat}
    (member : scope ∈ store.chain a) : scope ≤ a := by
  induction a using Nat.strongRecOn with
  | ind a inductionHypothesis =>
      rw [chain_eq_cons sound, List.mem_cons] at member
      rcases member with rfl | outer
      · exact Nat.le_refl _
      · cases enclosed : (store.scope a).parent with
        | none => simp [enclosed] at outer
        | some parent =>
            have older : parent < a := (sound.parents a parent enclosed).2
            rw [enclosed] at outer
            exact Nat.le_trans (inductionHypothesis parent older outer) (Nat.le_of_lt older)

/-- A chain meets no scope twice. -/
theorem nodup_chain {store : Store} (sound : store.Sound) (a : Nat) : (store.chain a).Nodup := by
  induction a using Nat.strongRecOn with
  | ind a inductionHypothesis =>
      rw [chain_eq_cons sound]
      cases enclosed : (store.scope a).parent with
      | none => simp
      | some parent =>
          have older : parent < a := (sound.parents a parent enclosed).2
          refine List.nodup_cons.mpr ⟨fun again => ?_, inductionHypothesis parent older⟩
          exact Nat.not_lt_of_ge (le_of_mem_chain sound again) older

/-! ## Resolution along parts of a chain -/

theorem resolveAlong_append (store : Store) (key : String) (nearer outer : List Addr) :
    store.resolveAlong key (nearer ++ outer) =
      (store.resolveAlong key nearer).or (store.resolveAlong key outer) :=
  List.findSome?_append

theorem resolveAlong_eq_none_iff (store : Store) (key : String) (scopes : List Addr) :
    store.resolveAlong key scopes = none ↔
      ∀ scope ∈ scopes, (store.scope scope).bindings.get? key = none := by
  simp [resolveAlong, List.findSome?_eq_none_iff]

theorem resolveAlong_congr {before after : Store} {key : String} {scopes : List Addr}
    (same : ∀ scope ∈ scopes,
      (after.scope scope).bindings.get? key = (before.scope scope).bindings.get? key) :
    after.resolveAlong key scopes = before.resolveAlong key scopes := by
  induction scopes with
  | nil => rfl
  | cons scope outer inductionHypothesis =>
      rw [List.forall_mem_cons] at same
      rw [resolveAlong, resolveAlong, List.findSome?_cons, List.findSome?_cons, same.1]
      have rest := inductionHypothesis same.2
      unfold resolveAlong at rest
      rw [rest]

/-- The owner that a key resolves to is the first scope of the chain that binds it. -/
theorem nearest?_eq_resolve? (store : Store) (a : Addr) (key : String) :
    store.nearest? a key = (store.resolve? a key).map Prod.fst := by
  cases found : store.nearest? a key with
  | none => rw [resolve?_of_unbound found, Option.map_none]
  | some owner =>
      obtain ⟨value, _, resolved⟩ := resolve?_of_nearest? found
      rw [resolved, Option.map_some]

/-- A key that resolves does so at a first scope of the chain that binds it. -/
theorem exists_chain_split {store : Store} {a owner : Addr} {key : String}
    (nearest : store.nearest? a key = some owner) :
    ∃ nearer outer, store.chain a = nearer ++ owner :: outer ∧
      ∀ scope ∈ nearer, (store.scope scope).bindings.get? key = none := by
  obtain ⟨_, nearer, outer, split, unbound⟩ := List.find?_eq_some_iff_append.mp nearest
  refine ⟨nearer, outer, split, fun scope member => get?_eq_none_of_not_binds ?_⟩
  simpa using unbound scope member

/-! ## Writes of one key -/

section Write

variable {before after : Store} {target : Addr} {key : String}

/-- `after` differs from `before` at most in what the scope at `target` binds `key` to. -/
structure WritesKey (before after : Store) (target : Addr) (key : String) : Prop where
  size : after.size = before.size
  lent : after.lent = before.lent
  /-- Only the payload at `target` may change. -/
  payloads : ∀ b, b ≠ target → after.payloads[b]? = before.payloads[b]?
  parents : ∀ b, (after.scope b).parent = (before.scope b).parent
  /-- The other bindings keep their values and their order. -/
  others : (after.scope target).bindings.otherEntries key =
    (before.scope target).bindings.otherEntries key

theorem writesKey_setBindings {store : Store} {a : Addr} (isScope : store.IsScope a)
    {changed : Table Value} {key : String}
    (others : changed.otherEntries key = (store.scope a).bindings.otherEntries key) :
    WritesKey store (store.setBindings a changed) a key where
  size := size_setBindings store a changed
  lent := rfl
  payloads b different := payload_setBindings_of_ne store a b changed different
  parents b := parent_setBindings store a b changed
  others := by rw [scope_setBindings_self store a changed isScope.lt_size, others]

/-- Writing the bindings that are there changes nothing. -/
theorem setBindings_bindings {store : Store} {a : Addr} (isScope : store.IsScope a) :
    store.setBindings a (store.scope a).bindings = store := by
  obtain ⟨present, stored⟩ := Array.getElem?_eq_some_iff.mp isScope.payload_eq
  have same : store.payloads.setIfInBounds a (.scope (store.scope a)) = store.payloads := by
    rw [← stored, Array.setIfInBounds, dif_pos present, Array.set_getElem_self]
  exact congrArg (Store.mk · store.lent) same

namespace WritesKey

theorem chain_eq (write : WritesKey before after target key) (a : Addr) :
    after.chain a = before.chain a :=
  chain_eq_of_parents write.parents a

theorem scope_eq (write : WritesKey before after target key) {b : Addr} (different : b ≠ target) :
    after.scope b = before.scope b := by
  simp only [scope, write.payloads b different]

/-- Every scope binds every other key as before. -/
theorem get?_other (write : WritesKey before after target key) (b : Addr) {second : String}
    (different : second ≠ key) :
    (after.scope b).bindings.get? second = (before.scope b).bindings.get? second := by
  by_cases here : b = target
  · subst here
    exact Table.get?_of_otherEntries write.others different
  · rw [write.scope_eq here]

/-- Through every scope, every other key resolves as before. -/
theorem resolve?_other (write : WritesKey before after target key) (a : Addr) {second : String}
    (different : second ≠ key) : after.resolve? a second = before.resolve? a second := by
  rw [resolve?, resolve?, write.chain_eq]
  exact resolveAlong_congr fun scope _ => write.get?_other scope different

theorem resolveAlong_away (write : WritesKey before after target key) {scopes : List Addr}
    (away : target ∉ scopes) :
    after.resolveAlong key scopes = before.resolveAlong key scopes := by
  apply resolveAlong_congr
  intro scope member
  rw [write.scope_eq fun same => away (same ▸ member)]

/-- A scope whose chain does not meet the target resolves the key as before. -/
theorem resolve?_away (write : WritesKey before after target key) {a : Addr}
    (away : target ∉ before.chain a) : after.resolve? a key = before.resolve? a key := by
  rw [resolve?, resolve?, write.chain_eq]
  exact write.resolveAlong_away away

/-- So does a scope with a nearer binding of the key than the target. -/
theorem resolve?_shielded (write : WritesKey before after target key) (sound : before.Sound)
    {a : Addr} {nearer outer : List Addr} (split : before.chain a = nearer ++ target :: outer)
    {scope : Addr} (member : scope ∈ nearer)
    (bound : (before.scope scope).bindings.get? key ≠ none) :
    after.resolve? a key = before.resolve? a key := by
  have distinct := nodup_chain sound a
  rw [split, List.nodup_append] at distinct
  have away : target ∉ nearer := fun again =>
    distinct.2.2 target again target List.mem_cons_self rfl
  have found : before.resolveAlong key nearer ≠ none := by
    rw [Ne, resolveAlong_eq_none_iff]
    exact fun unbound => bound (unbound scope member)
  obtain ⟨answer, resolved⟩ := Option.ne_none_iff_exists'.mp found
  rw [resolve?, resolve?, write.chain_eq, split, resolveAlong_append, resolveAlong_append,
    write.resolveAlong_away away, resolved]
  rfl

/-- Every other scope on whose chain the target stands resolves the key to what is written. -/
theorem resolve?_seen (write : WritesKey before after target key) (sound : before.Sound)
    {a : Addr} {nearer outer : List Addr} (split : before.chain a = nearer ++ target :: outer)
    (unbound : ∀ scope ∈ nearer, (before.scope scope).bindings.get? key = none) :
    after.resolve? a key =
      match (after.scope target).bindings.get? key with
      | some value => some (target, value)
      | none => before.resolveAlong key outer := by
  have distinct := nodup_chain sound a
  rw [split, List.nodup_append, List.nodup_cons] at distinct
  have awayNearer : target ∉ nearer := fun again =>
    distinct.2.2 target again target List.mem_cons_self rfl
  have nothing : before.resolveAlong key nearer = none :=
    (resolveAlong_eq_none_iff before key nearer).mpr unbound
  rw [resolve?, write.chain_eq, split, resolveAlong_append, write.resolveAlong_away awayNearer,
    nothing, Option.none_or, resolveAlong, List.findSome?_cons]
  cases written : (after.scope target).bindings.get? key with
  | some value => rfl
  | none => exact write.resolveAlong_away distinct.2.1.1

end WritesKey

end Write

end ScopedValues.Store
