import ScopedValues.Proofs.Storage.Sound
import ScopedValues.Store.Scope

/-!
Contract: which scope of a chain a key belongs to.

Owns the chain as the walk from parent to parent, the first scope of it that binds a
key, and what the searches through a chain answer while nothing is lent out.

Main statements: in sound storage the chain of a scope is the scope followed by the
chain of its parent; searching for an owner and looking a key up stop at the first
scope of the chain that binds the key.
-/

set_option autoImplicit false

namespace ScopedValues.Store

/-- Whether the scope at `a` binds `key` itself. -/
def binds (store : Store) (key : String) (a : Addr) : Bool :=
  (store.scope a).bindings.contains key

/-- The first scope of the chain of `a` that binds `key`. -/
def nearest? (store : Store) (a : Addr) (key : String) : Option Addr :=
  (store.chain a).find? (store.binds key)

/-- The first binding of `key` in a chain, with the scope it stands in. -/
def resolveAlong (store : Store) (key : String) (scopes : List Addr) : Option (Addr × Value) :=
  scopes.findSome? fun a => ((store.scope a).bindings.get? key).map (Prod.mk a)

/-- What `key` means to the scope at `a`: the owner and its binding. -/
def resolve? (store : Store) (a : Addr) (key : String) : Option (Addr × Value) :=
  store.resolveAlong key (store.chain a)

theorem binds_eq_isSome (store : Store) (key : String) (a : Addr) :
    store.binds key a = ((store.scope a).bindings.get? key).isSome :=
  (Table.isSome_get? _ key).symm

theorem exists_of_binds {store : Store} {key : String} {a : Addr}
    (bound : store.binds key a = true) :
    ∃ value, (store.scope a).bindings.get? key = some value := by
  rw [binds_eq_isSome] at bound
  exact Option.isSome_iff_exists.mp bound

theorem get?_eq_none_of_not_binds {store : Store} {key : String} {a : Addr}
    (unbound : store.binds key a = false) :
    (store.scope a).bindings.get? key = none := by
  rw [binds_eq_isSome] at unbound
  simpa using unbound

/-! ## The chain -/

theorem chainWithin_eq_chain {store : Store} (sound : store.Sound) (a : Addr) :
    ∀ fuel, a < fuel → store.chainWithin fuel a = store.chain a := by
  induction a using Nat.strongRecOn with
  | ind a inductionHypothesis =>
      intro fuel enough
      cases fuel with
      | zero => exact absurd enough (Nat.not_lt_zero a)
      | succ fuel =>
          rw [chain, chainWithin, chainWithin]
          cases enclosed : (store.scope a).parent with
          | none => rfl
          | some parent =>
              have older := (sound.parents a parent enclosed).2
              have inFuel := Nat.lt_of_lt_of_le older (Nat.le_of_lt_succ enough)
              simp only
              rw [inductionHypothesis parent older fuel inFuel,
                inductionHypothesis parent older a older]

/-- A chain is a scope and, if it has a parent, the chain of its parent. -/
theorem chain_eq_cons {store : Store} (sound : store.Sound) (a : Addr) :
    store.chain a = a ::
      match (store.scope a).parent with
      | some parent => store.chain parent
      | none => [] := by
  rw [chain, chainWithin]
  cases enclosed : (store.scope a).parent with
  | none => rfl
  | some parent =>
      simp only
      rw [chainWithin_eq_chain sound parent a (sound.parents a parent enclosed).2]

theorem mem_chain_self (store : Store) (a : Addr) : a ∈ store.chain a := by
  simp [chain, chainWithin]

theorem isScope_of_mem_chain {store : Store} (sound : store.Sound) {a : Addr}
    (isScope : store.IsScope a) : ∀ scope ∈ store.chain a, store.IsScope scope := by
  induction a using Nat.strongRecOn with
  | ind a inductionHypothesis =>
      intro scope member
      rw [chain_eq_cons sound, List.mem_cons] at member
      rcases member with rfl | outer
      · exact isScope
      · cases enclosed : (store.scope a).parent with
        | none => simp [enclosed] at outer
        | some parent =>
            obtain ⟨isParent, older⟩ := sound.parents a parent enclosed
            rw [enclosed] at outer
            exact inductionHypothesis parent older isParent scope outer

/-- Chains follow parents and nothing else. -/
theorem chain_eq_of_parents {before after : Store}
    (same : ∀ a, (after.scope a).parent = (before.scope a).parent) (a : Addr) :
    after.chain a = before.chain a := by
  have within : ∀ fuel a, after.chainWithin fuel a = before.chainWithin fuel a := by
    intro fuel
    induction fuel with
    | zero => intro a; rfl
    | succ fuel inductionHypothesis =>
        intro a
        rw [chainWithin, chainWithin, same a]
        cases (before.scope a).parent with
        | none => rfl
        | some parent => simp only [inductionHypothesis parent]
  exact within (a + 1) a

/-- Storage that develops keeps the chains of its scopes. -/
theorem Retains.chain_eq {before after : Store} (retains : before.Retains after)
    (sound : before.Sound) (soundAfter : after.Sound) {a : Addr} (isScope : before.IsScope a) :
    after.chain a = before.chain a := by
  induction a using Nat.strongRecOn with
  | ind a inductionHypothesis =>
      rw [chain_eq_cons sound, chain_eq_cons soundAfter, retains.parents a isScope]
      cases enclosed : (before.scope a).parent with
      | none => rfl
      | some parent =>
          obtain ⟨isParent, older⟩ := sound.parents a parent enclosed
          exact congrArg (a :: ·) (inductionHypothesis parent older isParent)

/-! ## Searches through a chain -/

theorem free_of_nothing_lent {store : Store} (idle : store.lent = []) (a : Addr) :
    store.free a = .ok () := by
  rw [free_eq_ok_iff, idle]
  exact List.not_mem_nil

theorem readScope_of_nothing_lent {store : Store} (idle : store.lent = []) (a : Addr) :
    store.readScope a = .ok (store.scope a) := by
  rw [readScope_eq, idle, if_neg List.not_mem_nil]

theorem bindings_of_lent {store : Store} {a : Addr} (lent : a ∈ store.lent) :
    store.bindings a = .error .conflict := by
  rw [bindings, readScope_eq, if_pos lent]
  rfl

theorem bindings_of_free {store : Store} {a : Addr} (free : a ∉ store.lent) :
    store.bindings a = .ok (store.scope a).bindings := by
  rw [bindings, readScope_eq, if_neg free]
  rfl

theorem bindings_of_nothing_lent {store : Store} (idle : store.lent = []) (a : Addr) :
    store.bindings a = .ok (store.scope a).bindings :=
  bindings_of_free (by simp [idle])

theorem enclosing_of_nothing_lent {store : Store} (idle : store.lent = []) (a : Addr) :
    store.enclosing a = .ok (store.chain a) := by
  have walked : ∀ scopes, store.walk scopes = .ok () := by
    intro scopes
    induction scopes with
    | nil => rfl
    | cons scope outer inductionHypothesis =>
        rw [walk, free_of_nothing_lent idle]
        exact inductionHypothesis
  rw [enclosing, walked]
  rfl

theorem firstBinding_eq_find? {store : Store} (idle : store.lent = []) (key : String)
    (scopes : List Addr) :
    store.firstBinding key scopes = .ok (scopes.find? (store.binds key)) := by
  induction scopes with
  | nil => rfl
  | cons scope outer inductionHypothesis =>
      rw [firstBinding, readScope_of_nothing_lent idle]
      change (if store.binds key scope = true then _ else _) = _
      by_cases bound : store.binds key scope = true
      · rw [if_pos bound, List.find?_cons_of_pos bound]
      · rw [if_neg bound, List.find?_cons_of_neg bound, inductionHypothesis]

theorem owner?_eq_nearest? {store : Store} (idle : store.lent = []) (a : Addr) (key : String) :
    store.owner? a key = .ok (store.nearest? a key) :=
  firstBinding_eq_find? idle key (store.chain a)

/-- The outcome of a copy as that of a search that has found it. -/
def foundCopy (outcome : Except Fault (Value × Store)) : Except Fault (Option Value × Store) :=
  outcome.map fun copied => (some copied.1, copied.2)

theorem find_of_get? {store : Store} (idle : store.lent = []) {a : Addr} {key : String}
    {value : Value} (bound : (store.scope a).bindings.get? key = some value) :
    store.find a key = foundCopy (store.copy value) := by
  rw [find, bindings_of_nothing_lent idle]
  simp only [bind, Except.bind, bound, foundCopy]
  cases store.copy value <;> rfl

theorem find_of_unbound {store : Store} (idle : store.lent = []) {a : Addr} {key : String}
    (unbound : (store.scope a).bindings.get? key = none) :
    store.find a key = .ok (none, store) := by
  rw [find, bindings_of_nothing_lent idle]
  simp only [bind, Except.bind, unbound]

theorem findAlong_eq {store : Store} (idle : store.lent = []) (key : String)
    (scopes : List Addr) :
    store.findAlong key scopes =
      match store.resolveAlong key scopes with
      | some (_, value) => foundCopy (store.copy value)
      | none => .ok (none, store) := by
  induction scopes with
  | nil => rfl
  | cons scope outer inductionHypothesis =>
      rw [findAlong]
      cases bound : (store.scope scope).bindings.get? key with
      | none =>
          rw [find_of_unbound idle bound, resolveAlong, List.findSome?_cons, bound]
          exact inductionHypothesis
      | some value =>
          rw [find_of_get? idle bound, resolveAlong, List.findSome?_cons, bound]
          simp only [foundCopy, Option.map_some]
          cases store.copy value <;> rfl

theorem lookup_eq {store : Store} (idle : store.lent = []) (a : Addr) (key : String) :
    store.lookup a key =
      match store.resolve? a key with
      | some (_, value) => foundCopy (store.copy value)
      | none => .ok (none, store) :=
  findAlong_eq idle key (store.chain a)

/-! ## Owners and bindings -/

theorem resolveAlong_eq (store : Store) (key : String) (scopes : List Addr) :
    store.resolveAlong key scopes =
      (scopes.find? (store.binds key)).bind fun owner =>
        ((store.scope owner).bindings.get? key).map (Prod.mk owner) := by
  induction scopes with
  | nil => rfl
  | cons scope outer inductionHypothesis =>
      rw [resolveAlong, List.findSome?_cons]
      cases bound : (store.scope scope).bindings.get? key with
      | none =>
          have unbound : ¬ store.binds key scope = true := by simp [binds_eq_isSome, bound]
          rw [List.find?_cons_of_neg unbound]
          exact inductionHypothesis
      | some value =>
          have here : store.binds key scope = true := by simp [binds_eq_isSome, bound]
          rw [List.find?_cons_of_pos here, Option.bind_some, bound]
          rfl

theorem nearest?_eq_none_iff (store : Store) (a : Addr) (key : String) :
    store.nearest? a key = none ↔ ∀ scope ∈ store.chain a, store.binds key scope = false := by
  rw [nearest?, List.find?_eq_none]
  simp only [Bool.not_eq_true]

theorem resolve?_of_nearest? {store : Store} {a owner : Addr} {key : String}
    (nearest : store.nearest? a key = some owner) :
    ∃ value, (store.scope owner).bindings.get? key = some value ∧
      store.resolve? a key = some (owner, value) := by
  obtain ⟨value, bound⟩ := exists_of_binds (List.find?_some nearest)
  refine ⟨value, bound, ?_⟩
  rw [resolve?, resolveAlong_eq]
  change (store.nearest? a key).bind _ = _
  rw [nearest, Option.bind_some, bound]
  rfl

theorem resolve?_of_unbound {store : Store} {a : Addr} {key : String}
    (unbound : store.nearest? a key = none) : store.resolve? a key = none := by
  rw [resolve?, resolveAlong_eq]
  change (store.nearest? a key).bind _ = _
  rw [unbound]
  rfl

end ScopedValues.Store
