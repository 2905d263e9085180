import ScopedValues.Proofs.Views.Ending
import ScopedValues.Store.Equal

/-!
Contract: when two values are alike, as a relation.

Owns likeness of values in depth, for any likeness of scalars and of parents and with or
without the rule that two handles to one payload are alike unseen, and the two instances
of it: being equal, and having the same structure.

Main statements: likeness is symmetric and transitive whenever the likeness of scalars and
of parents is, and every value equals itself in which no tuple leads to a NaN.
-/

set_option autoImplicit false

namespace ScopedValues

/-- What values have to have in common. -/
structure Likeness where
  scalars : Scalar → Scalar → Prop
  parents : Option Addr → Option Addr → Prop
  /-- Whether two handles to one payload are alike whatever is in it. -/
  unseen : Prop

/-- Tuples and lists are alike element by element, maps binding by binding. -/
inductive Value.Alike (likeness : Likeness) (store : Store) : Value → Value → Prop where
  | scalar {x y : Scalar} (alike : likeness.scalars x y) :
      Alike likeness store (.scalar x) (.scalar y)
  | tuple {xs ys : List Value} (length : xs.length = ys.length)
      (each : ∀ (i : Nat) (x y : Value), xs[i]? = some x → ys[i]? = some y →
        Alike likeness store x y) :
      Alike likeness store (.tuple xs) (.tuple ys)
  | list {a b : Addr} (length : (store.items a).length = (store.items b).length)
      (each : ∀ (i : Nat) (x y : Value), (store.items a)[i]? = some x →
        (store.items b)[i]? = some y → Alike likeness store x y) :
      Alike likeness store (.list a) (.list b)
  | map {a b : Addr} (parents : likeness.parents (store.scope a).parent (store.scope b).parent)
      (keys : ∀ key, key ∈ (store.scope a).bindings.keys ↔ key ∈ (store.scope b).bindings.keys)
      (each : ∀ (key : String) (x y : Value), (store.scope a).bindings.get? key = some x →
        (store.scope b).bindings.get? key = some y → Alike likeness store x y) :
      Alike likeness store (.map a) (.map b)
  | oneList (unseen : likeness.unseen) (a : Addr) : Alike likeness store (.list a) (.list a)
  | oneMap (unseen : likeness.unseen) (a : Addr) : Alike likeness store (.map a) (.map a)

/-! ## Two instances -/

def Scalar.isNaN : Scalar → Bool
  | .num x => x.isNaN
  | _ => false

namespace Likeness

/-- Numbers compare numerically, and maps have the same parent. -/
def equality : Likeness where
  scalars x y := x.equal y = true
  parents first second := first = second
  unseen := True

/-- All NaNs are one, other numbers are what they are, and parents do not matter. -/
def structural : Likeness where
  scalars x y := x = y ∨ x.isNaN = true ∧ y.isNaN = true
  parents _ _ := True
  unseen := False

end Likeness

/-! ## Equality of scalars -/

theorem Double.isNaN_of_isZero {x : Double} (zero : x.isZero = true) : x.isNaN = false := by
  simp only [isZero, Bool.and_eq_true, beq_iff_eq] at zero
  simp [isNaN, zero.1]

/-- Numbers are equal to what they are, apart from NaNs, and the zeros to one another. -/
theorem Double.equal_iff (x y : Double) :
    x.equal y = true ↔ x = y ∧ x.isNaN = false ∨ x.isZero = true ∧ y.isZero = true := by
  simp only [equal, Bool.and_eq_true, Bool.not_eq_true', Bool.or_eq_true, beq_iff_eq]
  constructor
  · rintro ⟨⟨proper, _⟩, same | zeros⟩
    · exact .inl ⟨same, proper⟩
    · exact .inr zeros
  · rintro (⟨rfl, proper⟩ | zeros)
    · exact ⟨⟨proper, proper⟩, .inl rfl⟩
    · exact ⟨⟨isNaN_of_isZero zeros.1, isNaN_of_isZero zeros.2⟩, .inr zeros⟩

namespace Scalar

def isZero : Scalar → Bool
  | .num x => x.isZero
  | _ => false

theorem equal_iff (x y : Scalar) :
    x.equal y = true ↔ x = y ∧ x.isNaN = false ∨ x.isZero = true ∧ y.isZero = true := by
  cases x <;> cases y <;> simp [Scalar.equal, isNaN, isZero, Double.equal_iff]

theorem equal_symm {x y : Scalar} (equal : x.equal y = true) : y.equal x = true := by
  rw [equal_iff] at equal ⊢
  rcases equal with ⟨rfl, proper⟩ | zeros
  · exact .inl ⟨rfl, proper⟩
  · exact .inr zeros.symm

theorem equal_trans {x y z : Scalar} (first : x.equal y = true) (second : y.equal z = true) :
    x.equal z = true := by
  rw [equal_iff] at first second ⊢
  rcases first with ⟨rfl, _⟩ | ⟨zero, _⟩
  · exact second
  · rcases second with ⟨rfl, _⟩ | ⟨_, zeroToo⟩
    · exact .inr ⟨zero, ‹_›⟩
    · exact .inr ⟨zero, zeroToo⟩

theorem equal_self_iff (x : Scalar) : x.equal x = true ↔ x.isNaN = false := by
  rw [equal_iff]
  cases x with
  | num x =>
      refine ⟨?_, fun proper => .inl ⟨rfl, proper⟩⟩
      rintro (⟨_, proper⟩ | ⟨zero, _⟩)
      · exact proper
      · exact Double.isNaN_of_isZero zero
  | none => simp [isNaN]
  | op text => simp [isNaN]
  | var name => simp [isNaN]
  | str text => simp [isNaN]

end Scalar

/-! ## The laws of likeness -/

namespace Value

variable {likeness : Likeness} {store : Store} {x y z : Value}

theorem Alike.symm (scalars : ∀ {x y}, likeness.scalars x y → likeness.scalars y x)
    (parents : ∀ {first second}, likeness.parents first second → likeness.parents second first)
    (alike : Alike likeness store x y) : Alike likeness store y x := by
  induction alike with
  | scalar alike => exact .scalar (scalars alike)
  | tuple length _ inductionHypothesis =>
      exact .tuple length.symm fun i x y left right => inductionHypothesis i y x right left
  | list length _ inductionHypothesis =>
      exact .list length.symm fun i x y left right => inductionHypothesis i y x right left
  | map kin keys _ inductionHypothesis =>
      exact .map (parents kin) (fun key => (keys key).symm)
        fun key x y left right => inductionHypothesis key y x right left
  | oneList unseen a => exact .oneList unseen a
  | oneMap unseen a => exact .oneMap unseen a

/-- A list of the same length has an element at the same position. -/
theorem exists_counterpart {α : Type} {xs ys : List α} (length : xs.length = ys.length) {i : Nat}
    {x : α} (found : xs[i]? = some x) : ∃ y, ys[i]? = some y := by
  obtain ⟨inRange, _⟩ := List.getElem?_eq_some_iff.mp found
  exact ⟨ys[i], List.getElem?_eq_getElem (length ▸ inRange)⟩

theorem exists_binding {table other : Table Value}
    (keys : ∀ key, key ∈ table.keys ↔ key ∈ other.keys) {key : String} {x : Value}
    (bound : table.get? key = some x) :
    ∃ y, other.get? key = some y := by
  rw [← Option.isSome_iff_exists, Table.isSome_get?, Table.contains_iff_mem_keys, ← keys,
    ← Table.contains_iff_mem_keys, ← Table.isSome_get?, bound]
  rfl

theorem Alike.trans
    (scalars : ∀ {x y z}, likeness.scalars x y → likeness.scalars y z → likeness.scalars x z)
    (parents : ∀ {first second third}, likeness.parents first second →
      likeness.parents second third → likeness.parents first third)
    (first : Alike likeness store x y) (second : Alike likeness store y z) :
    Alike likeness store x z := by
  induction first generalizing z with
  | scalar alike =>
      cases second with
      | scalar alikeToo => exact .scalar (scalars alike alikeToo)
  | tuple length _ inductionHypothesis =>
      cases second with
      | tuple lengthToo each =>
          refine .tuple (length.trans lengthToo) fun i x z left right => ?_
          obtain ⟨y, between⟩ := exists_counterpart length left
          exact inductionHypothesis i x y left between (each i y z between right)
  | list length each inductionHypothesis =>
      cases second with
      | list lengthToo eachToo =>
          refine .list (length.trans lengthToo) fun i x z left right => ?_
          obtain ⟨y, between⟩ := exists_counterpart length left
          exact inductionHypothesis i x y left between (eachToo i y z between right)
      | oneList => exact .list length each
  | map kin keys each inductionHypothesis =>
      cases second with
      | map kinToo keysToo eachToo =>
          refine .map (parents kin kinToo) (fun key => (keys key).trans (keysToo key))
            fun key x z left right => ?_
          obtain ⟨y, between⟩ := exists_binding keys left
          exact inductionHypothesis key x y left between (eachToo key y z between right)
      | oneMap => exact .map kin keys each
  | oneList => exact second
  | oneMap => exact second

/-! ## Values that equal themselves -/

mutual

/-- The scalars that are reached through tuples alone, in order. -/
def leaves : Value → List Scalar
  | .scalar x => [x]
  | .tuple items => leavesAll items
  | .list _ => []
  | .map _ => []
termination_by structural value => value

def leavesAll : List Value → List Scalar
  | [] => []
  | item :: rest => leaves item ++ leavesAll rest
termination_by structural items => items

end

@[simp] theorem leaves_tuple (items : List Value) :
    leaves (.tuple items) = items.flatMap leaves := by
  rw [leaves]
  induction items with
  | nil => rfl
  | cons item rest inductionHypothesis => rw [leavesAll, inductionHypothesis, List.flatMap_cons]

theorem alike_equality_self_iff (store : Store) (value : Value) :
    Alike .equality store value value ↔ ∀ x ∈ value.leaves, x.isNaN = false := by
  induction value with
  | scalar x =>
      rw [leaves, List.forall_mem_singleton, ← Scalar.equal_self_iff]
      constructor
      · rintro (alike | _)
        exact alike
      · exact fun alike => .scalar alike
  | tuple items inductionHypothesis =>
      simp only [leaves_tuple, List.mem_flatMap]
      constructor
      · rintro (_ | ⟨_, each⟩) x ⟨item, member, leaf⟩
        obtain ⟨i, found⟩ := List.getElem?_of_mem member
        exact (inductionHypothesis item member).mp (each i item item found found) x leaf
      · intro clean
        refine .tuple rfl fun i x y left right => ?_
        obtain rfl := Option.some.inj (left.symm.trans right)
        have member := List.mem_of_getElem? left
        exact (inductionHypothesis x member).mpr fun leaf inside => clean leaf ⟨x, member, inside⟩
  | list a => exact iff_of_true (.oneList trivial a) (by simp [leaves])
  | map a => exact iff_of_true (.oneMap trivial a) (by simp [leaves])

end Value

end ScopedValues
