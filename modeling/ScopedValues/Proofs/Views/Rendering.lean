import ScopedValues.Proofs.Views.Decoding

/-!
Contract: the agreement of plain forms and equality.

Owns the values that stand opposite one another when two values are compared, and what
makes values of one structure equal.

Main statement: in every session that can come about, equal values without a negative
zero have one plain form, and values with one plain form have one structure, which makes
them equal unless there is a NaN in them or maps of different parents stand opposite.
-/

set_option autoImplicit false

namespace ScopedValues

open Store Likeness

namespace Value

def isNaN : Value → Bool
  | .scalar x => x.isNaN
  | _ => false

/-- Comparing `x` with `y` part by part comes to comparing `u` with `v`. -/
inductive Opposite (store : Store) : Value → Value → Value → Value → Prop where
  | self (x y : Value) : Opposite store x y x y
  | element {xs ys : List Value} {i : Nat} {x y u v : Value} (left : xs[i]? = some x)
      (right : ys[i]? = some y) (inside : Opposite store x y u v) :
      Opposite store (.tuple xs) (.tuple ys) u v
  | item {a b : Addr} {i : Nat} {x y u v : Value} (left : (store.items a)[i]? = some x)
      (right : (store.items b)[i]? = some y) (inside : Opposite store x y u v) :
      Opposite store (.list a) (.list b) u v
  | binding {a b : Addr} {key : String} {x y u v : Value}
      (left : (store.scope a).bindings.get? key = some x)
      (right : (store.scope b).bindings.get? key = some y) (inside : Opposite store x y u v) :
      Opposite store (.map a) (.map b) u v

/-- Maps that stand opposite one another have the same parent. -/
def SameParents (store : Store) (x y : Value) : Prop :=
  ∀ a b, Opposite store x y (.map a) (.map b) → (store.scope a).parent = (store.scope b).parent

variable {store : Store} {x y : Value}

/-- One structure makes values equal, apart from NaNs and the parents of maps. -/
theorem Alike.equality_of_structural (alike : Alike structural store x y)
    (proper : x.Throughout store (·.isNaN = false)) (parents : SameParents store x y) :
    Alike equality store x y := by
  induction alike with
  | scalar alike =>
      have noNaN : (Value.scalar _).isNaN = false := proper.self
      rcases alike with rfl | ⟨nan, _⟩
      · exact .scalar ((Scalar.equal_self_iff _).mpr noNaN)
      · exact absurd nan (by rw [isNaN] at noNaN; simp [noNaN])
  | tuple length _ inductionHypothesis =>
      refine .tuple length fun i x y left right => ?_
      exact inductionHypothesis i x y left right (proper.element x (List.mem_of_getElem? left))
        fun a b opposite => parents a b (.element left right opposite)
  | list length _ inductionHypothesis =>
      refine .list length fun i x y left right => ?_
      exact inductionHypothesis i x y left right (proper.item x (List.mem_of_getElem? left))
        fun a b opposite => parents a b (.item left right opposite)
  | map _ keys _ inductionHypothesis =>
      refine .map (parents _ _ (.self _ _)) keys fun key x y left right => ?_
      exact inductionHypothesis key x y left right
        (proper.binding (key, x) (Table.mem_of_get? left))
        fun a b opposite => parents a b (.binding left right opposite)
  | oneList impossible => exact impossible.elim
  | oneMap impossible => exact impossible.elim

end Value

open Value

/-- On the values of a kind, plain forms and equality say the same about two values. -/
structure Store.RendersEquality (store : Store) (proper : Value → Prop) : Prop where
  written : ∀ x, proper x → ∃ text, store.text x = .ok text
  /-- Equal values have one plain form, whatever the declaration orders of their maps. -/
  ofEqual : ∀ x y, proper x → proper y → store.equal x y = .ok true →
    x.Throughout store (·.isNegativeZero = false) →
      y.Throughout store (·.isNegativeZero = false) → store.text x = store.text y
  /-- A plain form in which nothing is quoted inside quotes tells the structure. -/
  structureOf : ∀ x y, proper x → proper y → x.Throughout store (Plain store) →
    y.Throughout store (Plain store) → store.text x = store.text y →
      Alike structural store x y
  equalOf : ∀ x y, proper x → proper y → x.Throughout store (Plain store) →
    y.Throughout store (Plain store) → store.text x = store.text y →
      x.Throughout store (·.isNaN = false) → SameParents store x y →
        store.equal x y = .ok true

theorem Store.Sound.rendersEquality {store : Store} (sound : store.Sound) :
    store.RendersEquality (Ends store) := by
  have structureOf : ∀ x y : Value, x.Ends store → y.Ends store →
      x.Throughout store (Plain store) → y.Throughout store (Plain store) →
        store.text x = store.text y → Alike structural store x y := by
    intro x y ends endsToo plain plainToo same
    rw [ends.text_eq sound.toTyped, endsToo.text_eq sound.toTyped] at same
    have chars := congrArg String.toList (Except.ok.inj same)
    refine (ends.decodes sound plain endsToo plainToo [] [] Decoding.stops_nil
      Decoding.stops_nil ?_).1
    rw [List.append_nil, List.append_nil]
    exact chars
  refine { written := ?_, ofEqual := ?_, structureOf, equalOf := ?_ }
  · exact fun x ends => ⟨_, ends.text_eq sound.toTyped⟩
  · intro x y ends endsToo equal clean cleanToo
    rw [(ends.decides_equal sound endsToo).eq_ok_true_iff] at equal
    rw [ends.text_eq sound.toTyped, endsToo.text_eq sound.toTyped,
      equal.spelling_eq sound ends endsToo clean cleanToo]
  · intro x y ends endsToo plain plainToo same noNaN parents
    rw [(ends.decides_equal sound endsToo).eq_ok_true_iff]
    exact (structureOf x y ends endsToo plain plainToo same).equality_of_structural noNaN parents

theorem Store.RendersEquality.restrict {store : Store} {proper part : Value → Prop}
    (renders : store.RendersEquality proper) (inside : ∀ x, part x → proper x) :
    store.RendersEquality part where
  written x left := renders.written x (inside x left)
  ofEqual x y left right := renders.ofEqual x y (inside x left) (inside y right)
  structureOf x y left right := renders.structureOf x y (inside x left) (inside y right)
  equalOf x y left right := renders.equalOf x y (inside x left) (inside y right)

/-- In a session that can come about, plain forms and equality agree about the values that can be
read to their ends, also while changes in place are under way. -/
theorem Session.Reached.renders_equality_readable {session : Session} {frames : List Frame}
    (reached : session.Reached frames) :
    session.context.store.RendersEquality session.context.store.Readable :=
  have sound := reached.stands.sound.context.store
  sound.rendersEquality.restrict fun _ readable => readable.ends sound.toTyped

/-- With nothing under way, these are the values of which no element or binding leads to a
cycle. -/
theorem Session.Reachable.renders_equality {session : Session} (reachable : session.Reachable) :
    session.context.store.RendersEquality fun value =>
      value.Held session.context.store ∧ value.Acyclic session.context.store :=
  (Session.Reached.renders_equality_readable reachable).restrict fun _ proper =>
    .of_idle reachable.nothing_lent proper.1 proper.2

theorem Session.bindings_mirrored {a : Addr} (small : a < 2) :
    ∀ entry ∈ (Session.mirrored.context.store.scope a).bindings.entries,
      entry.2 = Value.none ∨ entry.2 = .str "second" := by
  match a, small with
  | 0, _ =>
      rintro entry (_ | ⟨_, _ | ⟨_, _ | _⟩⟩)
      · exact .inl rfl
      · exact .inr rfl
  | 1, _ =>
      rintro entry (_ | ⟨_, _ | ⟨_, _ | _⟩⟩)
      · exact .inr rfl
      · exact .inl rfl

theorem Session.throughout_mirrored {property : Value → Prop} {a : Addr} (small : a < 2)
    (map : property (.map a)) (absent : property Value.none)
    (string : property (.str "second")) :
    (Value.map a).Throughout Session.mirrored.context.store property := by
  intro inner inside
  cases inside with
  | self => exact map
  | binding member inside =>
      rcases Session.bindings_mirrored small _ member with same | same <;> rw [same] at inside <;>
        cases inside
      · exact absent
      · exact string

theorem Session.sameParents_mirrored :
    SameParents Session.mirrored.context.store (.map 1) (.map 0) := by
  intro a b opposite
  cases opposite with
  | self => rfl
  | binding left right inside =>
      have stored := Table.mem_of_get? left
      rcases Session.bindings_mirrored (by decide) _ stored with same | same <;>
        simp only at same <;> rw [same] at inside <;> cases inside

/-- The two roots have one plain form, and are equal because of it. -/
theorem Session.renders_equality_mirrored :
    Session.mirrored.Reachable ∧
      Session.mirrored.context.store.text (.map 0) =
        Session.mirrored.context.store.text (.map 1) ∧
      Session.mirrored.context.store.equal (.map 1) (.map 0) = .ok true := by
  have renders := Session.reachable_mirrored.renders_equality
  have left : (Value.map 0).Held Session.mirrored.context.store :=
    (Value.held_map _ _).mpr ⟨_, rfl⟩
  have right : (Value.map 1).Held Session.mirrored.context.store :=
    (Value.held_map _ _).mpr ⟨_, rfl⟩
  have proper := Session.acyclic_mirrored
  have plain : ∀ a < 2, (Value.map a).Throughout Session.mirrored.context.store
      (Plain Session.mirrored.context.store) := by
    intro a small
    refine Session.throughout_mirrored small ?_ trivial (show '"' ∉ "second".toList by decide)
    change ∀ key ∈ (Session.mirrored.context.store.scope a).bindings.keys, '"' ∉ key.toList
    match a, small with
    | 0, _ | 1, _ => decide
  have same : Session.mirrored.context.store.text (.map 0) =
      Session.mirrored.context.store.text (.map 1) :=
    renders.ofEqual _ _ ⟨left, proper _⟩ ⟨right, proper _⟩ rfl
      (Session.throughout_mirrored (by decide) rfl rfl rfl)
      (Session.throughout_mirrored (by decide) rfl rfl rfl)
  refine ⟨Session.reachable_mirrored, same, ?_⟩
  exact renders.equalOf _ _ ⟨right, proper _⟩ ⟨left, proper _⟩ (plain 1 (by decide))
    (plain 0 (by decide)) same.symm (Session.throughout_mirrored (by decide) rfl rfl rfl)
    Session.sameParents_mirrored

end ScopedValues
