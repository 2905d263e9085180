import Mathlib.Data.List.Perm.Subperm
import ScopedValues.Proofs.Sessions.Reachable
import ScopedValues.Proofs.Views.Comparing
import ScopedValues.Proofs.Views.Likeness

/-!
Contract: what equality of values decides.

Owns the comparison of values that end, whichever addresses it takes for equal unseen, and the
laws that equality obeys.

Main statement: in every session that can come about, equality of values that can be read to
their ends comes to an answer, is symmetric and transitive, and holds between a value and
itself unless a NaN is reached through tuples alone.
-/

set_option autoImplicit false

namespace ScopedValues

/-! ## Tables with the same keys -/

namespace Table

variable {α : Type} {table other : Table α}

/-- Of two tables of one size, one has all the keys of the other only if both have the same. -/
theorem mem_keys_iff_of_subset (distinct : table.keys.Nodup) (size : table.size = other.size)
    (subset : table.keys ⊆ other.keys) (key : String) :
    key ∈ table.keys ↔ key ∈ other.keys := by
  have length : other.keys.length ≤ table.keys.length := by
    rw [keys, keys, List.length_map, List.length_map]
    exact Nat.le_of_eq size.symm
  exact ((List.subperm_of_subset distinct subset).perm_of_length_le length).mem_iff

theorem size_eq_of_mem_keys_iff (distinct : table.keys.Nodup) (distinctToo : other.keys.Nodup)
    (same : ∀ key, key ∈ table.keys ↔ key ∈ other.keys) : table.size = other.size := by
  have perm := (List.perm_ext_iff_of_nodup distinct distinctToo).mpr same
  simpa [keys, Table.size] using perm.length_eq

end Table

/-! ## Comparisons that decide -/

/-- A comparison comes to an answer, and the answer is whether `claim` holds. -/
def Decides (outcome : Except Fault Bool) (claim : Prop) : Prop :=
  ∃ answer, outcome = .ok answer ∧ (answer = true ↔ claim)

namespace Decides

variable {outcome rest : Except Fault Bool} {claim further : Prop}

theorem yes (holds : claim) : Decides (.ok true) claim :=
  ⟨true, rfl, iff_of_true rfl holds⟩

theorem no (fails : ¬ claim) : Decides (.ok false) claim :=
  ⟨false, rfl, iff_of_false Bool.false_ne_true fails⟩

theorem congr (decides : Decides outcome claim) (same : claim ↔ further) :
    Decides outcome further := by
  obtain ⟨answer, ok, iff⟩ := decides
  exact ⟨answer, ok, iff.trans same⟩

/-- A comparison that goes on only after a first one has succeeded. -/
theorem andThen (first : Decides outcome claim) (second : Decides rest further) :
    Decides (do if ← outcome then rest else .ok false) (claim ∧ further) := by
  obtain ⟨answer, rfl, iff⟩ := first
  cases answer with
  | true => exact second.congr (by simp [← iff])
  | false => exact no fun both => Bool.false_ne_true (iff.mpr both.1)

theorem eq_ok_true_iff (decides : Decides outcome claim) : outcome = .ok true ↔ claim := by
  obtain ⟨answer, rfl, iff⟩ := decides
  rw [Except.ok.injEq, iff]

theorem eq_ok_false_iff (decides : Decides outcome claim) : outcome = .ok false ↔ ¬ claim := by
  obtain ⟨answer, rfl, iff⟩ := decides
  rw [Except.ok.injEq, ← iff, Bool.not_eq_true]

theorem eq_iff (first : Decides outcome claim) (second : Decides rest further) :
    outcome = rest ↔ (claim ↔ further) := by
  obtain ⟨answer, rfl, iff⟩ := first
  obtain ⟨other, rfl, iffToo⟩ := second
  rw [Except.ok.injEq, Bool.eq_iff_iff, iff, iffToo]

theorem eq_of_iff (first : Decides outcome claim) (second : Decides rest further)
    (same : claim ↔ further) : outcome = rest :=
  (first.eq_iff second).mpr same

end Decides

section Parts

variable {agree : Addr → Addr → Except Fault Bool} {related : Value → Value → Prop}

theorem Value.decides_equalAllBy {xs : List Value} :
    ∀ {ys : List Value}, xs.length = ys.length →
      (∀ x ∈ xs, ∀ y ∈ ys, Decides (x.equalBy agree y) (related x y)) →
        Decides (equalAllBy agree xs ys)
          (∀ (i : Nat) (x y : Value), xs[i]? = some x → ys[i]? = some y → related x y) := by
  induction xs with
  | nil =>
      intro ys _ _
      exact .yes fun i x y left => by simp at left
  | cons x xs inductionHypothesis =>
      intro ys length each
      cases ys with
      | nil => cases length
      | cons y ys =>
          rw [List.forall_mem_cons] at each
          have first := each.1 y List.mem_cons_self
          have later := inductionHypothesis (Nat.succ.inj length) fun x member y memberToo =>
            each.2 x member y (List.mem_cons_of_mem _ memberToo)
          rw [equalAllBy]
          refine (first.andThen later).congr ⟨fun both i u v left right => ?_, fun all => ?_⟩
          · cases i with
            | zero =>
                cases left
                cases right
                exact both.1
            | succ i => exact both.2 i u v left right
          · exact ⟨all 0 x y rfl rfl, fun i u v left right => all (i + 1) u v left right⟩

theorem Table.decides_includesBy (other : Table Value) {entries : List (String × Value)}
    (each : ∀ entry ∈ entries, ∀ found, other.get? entry.1 = some found →
      Decides (entry.2.equalBy agree found) (related entry.2 found)) :
    Decides (includesBy agree other entries)
      (∀ entry ∈ entries, ∃ found, other.get? entry.1 = some found ∧ related entry.2 found) := by
  induction entries with
  | nil => exact .yes (by simp)
  | cons entry rest inductionHypothesis =>
      obtain ⟨key, value⟩ := entry
      rw [List.forall_mem_cons] at each
      rw [includesBy]
      cases bound : other.get? key with
      | none =>
          refine .no fun all => ?_
          obtain ⟨found, present, _⟩ := all (key, value) List.mem_cons_self
          rw [bound] at present
          cases present
      | some found =>
          have first := each.1 found bound
          refine (first.andThen (inductionHypothesis each.2)).congr ?_
          rw [List.forall_mem_cons]
          refine and_congr ⟨fun related => ⟨found, bound, related⟩, ?_⟩ Iff.rfl
          rintro ⟨_, present, related⟩
          rw [bound] at present
          cases present
          exact related

end Parts

namespace Store

variable {store : Store} {a b : Addr}

/-- What a comparison says about two addresses, where `unseen` tells which are equal unseen. -/
def comparison (store : Store) (unseen : Addr → Addr → Bool) : Addr → Addr → Except Fault Bool :=
  store.compareWithin unseen (store.size * store.size + 1)

/-- What equality says about two addresses. -/
def agree (store : Store) : Addr → Addr → Except Fault Bool :=
  store.agreeWithin (store.size * store.size + 1)

theorem agree_eq_comparison (store : Store) : store.agree = store.comparison (· == ·) :=
  agreeWithin_eq_compareWithin store _

/-- Fuel is never short, so the comparison of addresses is what one look at both makes it. -/
theorem comparison_eq (unseen : Addr → Addr → Bool) (typed : store.Typed) (left : a < store.size)
    (right : b < store.size) :
    store.comparison unseen a b =
      if unseen a b then .ok true else store.agreePayloads (store.comparison unseen) a b := by
  have view : Agree (· < store.size) store store :=
    Agree.refl_of_closed (fun _ inside => inside) typed.closed
  have enough : ∀ a b, a < store.size → b < store.size →
      store.compareWithin unseen (store.size * store.size) a b = store.comparison unseen a b :=
    compareWithin_eq_of_size_le unseen (fun _ inside => inside) typed.closed (Nat.le_refl _)
      (Nat.le_succ _)
  rw [comparison, compareWithin, view.agreePayloads_congr enough left right]
  rfl

theorem agree_eq (typed : store.Typed) (left : a < store.size) (right : b < store.size) :
    store.agree a b = if a = b then .ok true else store.agreePayloads store.agree a b := by
  rw [agree_eq_comparison, comparison_eq _ typed left right]
  simp only [beq_iff_eq]

theorem readPayload_list (isList : store.IsList a) (free : a ∉ store.lent) :
    store.readPayload a = .ok (.list (store.items a)) := by
  rw [readPayload, (free_eq_ok_iff store a).mpr free, isList.payload_eq]
  rfl

theorem readPayload_scope (isScope : store.IsScope a) (free : a ∉ store.lent) :
    store.readPayload a = .ok (.scope (store.scope a)) := by
  rw [readPayload, (free_eq_ok_iff store a).mpr free, isScope.payload_eq]
  rfl

theorem agreePayloads_eq {agree : Addr → Addr → Except Fault Bool} {first second : Payload}
    (left : store.readPayload a = .ok first) (right : store.readPayload b = .ok second) :
    store.agreePayloads agree a b = first.equalBy agree second := by
  rw [agreePayloads, left, right]
  rfl

end Store

open Store Likeness

/-! ## The comparison of values that end -/

/-- What is alike is what a comparison finds equal that takes these addresses for equal unseen. -/
structure Likeness.Compared (likeness : Likeness) (unseen : Addr → Addr → Bool) : Prop where
  scalars : ∀ x y, likeness.scalars x y ↔ x.equal y = true
  parents : ∀ first second, likeness.parents first second ↔ first = second
  unseen : ∀ a b, unseen a b = true ↔ likeness.unseen ∧ a = b

theorem Likeness.compared_equality : equality.Compared (· == ·) where
  scalars _ _ := Iff.rfl
  parents _ _ := Iff.rfl
  unseen _ _ := by simp [equality]

namespace Value

variable {store : Store} {x y : Value} {likeness : Likeness} {unseen : Addr → Addr → Bool}

/-- Two maps are equal exactly if their parents are one and their tables have the same keys
with equal bindings. The comparison looks for the keys of one table in the other only. -/
theorem decides_tables (compared : likeness.Compared unseen) (sound : store.Sound) {a b : Addr}
    (different : ¬ unseen a b = true)
    (each : ∀ entry ∈ (store.scope a).bindings.entries, ∀ found,
      (store.scope b).bindings.get? entry.1 = some found →
        Decides (entry.2.equalBy (store.comparison unseen) found)
          (Alike likeness store entry.2 found)) :
    Decides
      ((Payload.scope (store.scope a)).equalBy (store.comparison unseen) (.scope (store.scope b)))
      (Alike likeness store (.map a) (.map b)) := by
  rw [Payload.equalBy]
  split
  · next fits =>
      refine (Table.decides_includesBy _ each).congr ⟨fun all => ?_, ?_⟩
      · have subset : (store.scope a).bindings.keys ⊆ (store.scope b).bindings.keys := by
          intro key member
          obtain ⟨entry, stored, rfl⟩ := List.mem_map.mp member
          obtain ⟨found, bound, _⟩ := all entry stored
          exact Table.mem_keys_iff.mpr ⟨found, bound⟩
        refine .map ((compared.parents _ _).mpr fits.1)
          (Table.mem_keys_iff_of_subset (sound.keys a) fits.2 subset) ?_
        intro key u v left right
        obtain ⟨found, bound, alike⟩ := all (key, u) (Table.mem_of_get? left)
        obtain rfl := Option.some.inj (right.symm.trans bound)
        exact alike
      · rintro (_ | _ | _ | ⟨_, keys, alike⟩ | _ | yes) ⟨key, u⟩ member
        · have left := Table.get?_of_mem (sound.keys a) member
          obtain ⟨v, right⟩ := exists_binding keys left
          exact ⟨v, right, alike key u v left right⟩
        · exact absurd ((compared.unseen a a).mpr ⟨yes, rfl⟩) different
  · next misfit =>
      refine .no ?_
      rintro (_ | _ | _ | ⟨parents, keys, _⟩ | _ | yes)
      · exact misfit ⟨(compared.parents _ _).mp parents,
          Table.size_eq_of_mem_keys_iff (sound.keys a) (sound.keys b) keys⟩
      · exact different ((compared.unseen a a).mpr ⟨yes, rfl⟩)

theorem Ends.decides_equalBy (compared : likeness.Compared unseen) (sound : store.Sound)
    (ends : x.Ends store) :
    ∀ {y : Value}, y.Ends store →
      Decides (x.equalBy (store.comparison unseen) y) (Alike likeness store x y) := by
  induction ends with
  | scalar x =>
      intro y endsToo
      cases endsToo with
      | scalar y =>
          refine ⟨_, rfl, fun equal => .scalar ((compared.scalars x y).mpr equal), ?_⟩
          rintro (alike | _)
          exact (compared.scalars x y).mp alike
      | _ => exact .no fun impossible => by cases impossible
  | @tuple xs _ inductionHypothesis =>
      intro y endsToo
      cases endsToo with
      | @tuple ys each =>
          rw [equalBy]
          split
          · next length =>
              refine (decides_equalAllBy length fun x member y memberToo =>
                inductionHypothesis x member (each y memberToo)).congr
                  ⟨fun all => .tuple length all, ?_⟩
              rintro (_ | ⟨_, all⟩)
              exact all
          · next length =>
              refine .no ?_
              rintro (_ | ⟨same, _⟩)
              exact length same
      | _ => exact .no fun impossible => by cases impossible
  | @list a isList free _ inductionHypothesis =>
      intro y endsToo
      cases endsToo with
      | @list b isListToo freeToo each =>
          rw [equalBy, comparison_eq unseen sound.toTyped isList.lt_size isListToo.lt_size]
          split
          · next same =>
              obtain ⟨yes, rfl⟩ := (compared.unseen a b).mp same
              exact .yes (.oneList yes a)
          · next different =>
              rw [agreePayloads_eq (readPayload_list isList free)
                (readPayload_list isListToo freeToo), Payload.equalBy]
              split
              · next length =>
                  refine (decides_equalAllBy length fun x member y memberToo =>
                    inductionHypothesis x member (each y memberToo)).congr
                      ⟨fun all => .list length all, ?_⟩
                  rintro (_ | _ | ⟨_, all⟩ | _ | yes)
                  · exact all
                  · exact absurd ((compared.unseen a a).mpr ⟨yes, rfl⟩) different
              · next length =>
                  refine .no ?_
                  rintro (_ | _ | ⟨same, _⟩ | _ | _)
                  · exact length same
                  · exact length rfl
      | _ => exact .no fun impossible => by cases impossible
  | @map a isScope free _ inductionHypothesis =>
      intro y endsToo
      cases endsToo with
      | @map b isScopeToo freeToo each =>
          rw [equalBy, comparison_eq unseen sound.toTyped isScope.lt_size isScopeToo.lt_size]
          split
          · next same =>
              obtain ⟨yes, rfl⟩ := (compared.unseen a b).mp same
              exact .yes (.oneMap yes a)
          · next different =>
              rw [agreePayloads_eq (readPayload_scope isScope free)
                (readPayload_scope isScopeToo freeToo)]
              exact decides_tables compared sound different fun entry member found bound =>
                inductionHypothesis entry member (each _ (Table.mem_of_get? bound))
      | _ => exact .no fun impossible => by cases impossible

/-- Equality of values that end comes to an answer, which is whether they are alike. -/
theorem Ends.decides_equal (sound : store.Sound) (ends : x.Ends store) (endsToo : y.Ends store) :
    Decides (store.equal x y) (Alike equality store x y) := by
  have decides := ends.decides_equalBy Likeness.compared_equality sound endsToo
  rwa [← agree_eq_comparison] at decides

end Value

/-! ## A partial equivalence -/

/-- Equality comes to an answer on the values of a kind, and is a partial equivalence there. -/
structure Store.PartialEquivalence (store : Store) (proper : Value → Prop) : Prop where
  decides : ∀ x y, proper x → proper y →
    Decides (store.equal x y) (Value.Alike equality store x y)
  symmetric : ∀ x y, proper x → proper y → store.equal x y = store.equal y x
  transitive : ∀ x y z, proper x → proper y → proper z → store.equal x y = .ok true →
    store.equal y z = .ok true → store.equal x z = .ok true
  reflexive : ∀ x, proper x →
    (store.equal x x = .ok true ↔ ∀ leaf ∈ x.leaves, leaf.isNaN = false)

/-- Equality is a partial equivalence between values that end. -/
theorem Store.Sound.partialEquivalence {store : Store} (sound : store.Sound) :
    store.PartialEquivalence (Value.Ends store) := by
  have decides : ∀ x y : Value, x.Ends store → y.Ends store →
      Decides (store.equal x y) (Value.Alike equality store x y) :=
    fun _ _ ends endsToo => ends.decides_equal sound endsToo
  have back : ∀ {x y : Value}, Value.Alike equality store x y → Value.Alike equality store y x :=
    Value.Alike.symm Scalar.equal_symm Eq.symm
  refine { decides, symmetric := ?_, transitive := ?_, reflexive := ?_ }
  · intro x y left right
    exact (decides x y left right).eq_of_iff (decides y x right left) ⟨back, back⟩
  · intro x y z left middle right first second
    rw [(decides x y left middle).eq_ok_true_iff] at first
    rw [(decides y z middle right).eq_ok_true_iff] at second
    exact (decides x z left right).eq_ok_true_iff.mpr
      (first.trans Scalar.equal_trans Eq.trans second)
  · intro x ends
    rw [(decides x x ends ends).eq_ok_true_iff, Value.alike_equality_self_iff]

theorem Store.PartialEquivalence.restrict {store : Store} {proper part : Value → Prop}
    (equivalence : store.PartialEquivalence proper) (inside : ∀ x, part x → proper x) :
    store.PartialEquivalence part where
  decides x y left right := equivalence.decides x y (inside x left) (inside y right)
  symmetric x y left right := equivalence.symmetric x y (inside x left) (inside y right)
  transitive x y z left middle right :=
    equivalence.transitive x y z (inside x left) (inside y middle) (inside z right)
  reflexive x proper := equivalence.reflexive x (inside x proper)

/-- In a session that can come about, equality is a partial equivalence between the values that
can be read to their ends, also while changes in place are under way. -/
theorem Session.Reached.equality_readable {session : Session} {frames : List Frame}
    (reached : session.Reached frames) :
    session.context.store.PartialEquivalence session.context.store.Readable :=
  have sound := reached.stands.sound.context.store
  sound.partialEquivalence.restrict fun _ readable => readable.ends sound.toTyped

/-- With nothing under way, these are the values of which no element or binding leads to a
cycle. -/
theorem Session.Reachable.equality {session : Session} (reachable : session.Reachable) :
    session.context.store.PartialEquivalence fun value =>
      value.Held session.context.store ∧ value.Acyclic session.context.store :=
  (Session.Reached.equality_readable reachable).restrict fun _ proper =>
    .of_idle reachable.nothing_lent proper.1 proper.2

/-- Two roots with the same bindings in either order, and a list with a NaN in it. -/
def Session.mirrored : Session :=
  (Session.start false).run [
    .store "left" (.map .root [("a", .scalar .none), ("b", .scalar (.str "second"))]),
    .store "right" (.map .root [("b", .scalar (.str "second")), ("a", .scalar .none)]),
    .store "odd" (.list [.scalar (.num ⟨0x7ff8000000000000⟩)])]

theorem Session.reachable_mirrored : Session.mirrored.Reachable :=
  (Session.Reached.start false).run _

theorem Session.not_edge_mirrored (a b : Addr) : ¬ Session.mirrored.context.store.Edge a b := by
  rintro ⟨value, stored, named⟩
  have scalars : ∀ value ∈ Session.mirrored.context.store.values a, value.addresses = [] := by
    match a with
    | 0 | 1 | 2 => decide
    | n + 3 => exact fun _ impossible => by cases impossible
  rw [scalars value stored] at named
  cases named

theorem Session.acyclic_mirrored (value : Value) :
    value.Acyclic Session.mirrored.context.store := by
  intro a _ b _ itself
  obtain ⟨_, edge, _⟩ := Relation.TransGen.head'_iff.mp itself
  exact Session.not_edge_mirrored b _ edge

theorem Session.equality_mirrored :
    Session.mirrored.Reachable ∧
      Session.mirrored.context.store.equal (.map 0) (.map 1) = .ok true ∧
      Session.mirrored.context.store.equal (.map 1) (.map 0) = .ok true ∧
      Session.mirrored.context.store.equal (.list 2) (.list 2) = .ok true := by
  have equivalence := Session.reachable_mirrored.equality
  have left : (Value.map 0).Held Session.mirrored.context.store :=
    (Value.held_map _ _).mpr ⟨_, rfl⟩
  have right : (Value.map 1).Held Session.mirrored.context.store :=
    (Value.held_map _ _).mpr ⟨_, rfl⟩
  have odd : (Value.list 2).Held Session.mirrored.context.store :=
    (Value.held_list _ _).mpr ⟨_, rfl⟩
  have equal : Session.mirrored.context.store.equal (.map 0) (.map 1) = .ok true := rfl
  refine ⟨Session.reachable_mirrored, equal, ?_, ?_⟩
  · rw [← equal]
    exact equivalence.symmetric _ _ ⟨right, Session.acyclic_mirrored _⟩
      ⟨left, Session.acyclic_mirrored _⟩
  · exact (equivalence.reflexive _ ⟨odd, Session.acyclic_mirrored _⟩).mpr (by simp [Value.leaves])

end ScopedValues
