import ScopedValues.Proofs.Numbers.Writing
import ScopedValues.Proofs.Views.Equality

/-!
Contract: the plain form of values that end.

Owns the text of such a value, and what it is made of.

Main statements: a value that ends has a plain form, which is made of the plain forms of
its elements or bindings; and equal values have the same one unless they contain a
negative zero, whatever the declaration orders of their maps.
-/

set_option autoImplicit false

namespace ScopedValues

open Store Likeness

/-! ## Trees of values that end -/

section Trees

variable {ν : Type} {follow : Addr → Except Fault (Tree ν)} {spelled : Value → String}

theorem Value.unfoldAllBy_ok {items : List Value}
    (each : ∀ item ∈ items, ∃ tree, item.unfoldBy follow = .ok tree ∧ tree.text = spelled item) :
    ∃ trees, unfoldAllBy follow items = .ok trees ∧ Tree.texts trees = items.map spelled := by
  induction items with
  | nil => exact ⟨[], rfl, rfl⟩
  | cons item rest inductionHypothesis =>
      rw [List.forall_mem_cons] at each
      obtain ⟨⟨tree, unfolded, written⟩, later⟩ := each
      obtain ⟨trees, unfoldedToo, writtenToo⟩ := inductionHypothesis later
      refine ⟨tree :: trees, ?_, ?_⟩
      · rw [unfoldAllBy, unfolded, unfoldedToo]
        rfl
      · rw [Tree.texts, written, writtenToo, List.map_cons]

theorem Value.unfoldEntriesBy_ok {entries : List (String × Value)}
    (each : ∀ entry ∈ entries,
      ∃ tree, entry.2.unfoldBy follow = .ok tree ∧ tree.text = spelled entry.2) :
    ∃ trees, unfoldEntriesBy follow entries = .ok trees ∧
      Tree.entryTexts trees = entries.map fun entry => (entry.1, spelled entry.2) := by
  induction entries with
  | nil => exact ⟨[], rfl, rfl⟩
  | cons entry rest inductionHypothesis =>
      obtain ⟨key, value⟩ := entry
      rw [List.forall_mem_cons] at each
      obtain ⟨⟨tree, unfolded, written⟩, later⟩ := each
      obtain ⟨trees, unfoldedToo, writtenToo⟩ := inductionHypothesis later
      refine ⟨(key, tree) :: trees, ?_, ?_⟩
      · rw [unfoldEntriesBy, unfolded, unfoldedToo]
        rfl
      · rw [Tree.entryTexts, Tree.entryText, written, writtenToo, List.map_cons]

end Trees

namespace Store

variable {store : Store} {a : Addr}

def noteParent : Note (Option Addr) :=
  fun _ scope => .ok scope.parent

/-- The tree behind an address, with the parents of maps. -/
def treeAt (store : Store) : Addr → Except Fault (Tree (Option Addr)) :=
  store.followWithin noteParent (store.size + 1)

theorem treeAt_eq (typed : store.Typed) (present : a < store.size) :
    store.treeAt a = store.readPayload a >>= followPayload noteParent store.treeAt a :=
  followWithin_size_eq typed noteParent present

/-- The plain form of a value that has one. -/
def spelling (store : Store) (value : Value) : String :=
  match store.text value with
  | .ok text => text
  | .error _ => ""

theorem text_eq_ok_iff {value : Value} {text : String} :
    store.text value = .ok text ↔
      ∃ tree, value.unfoldBy store.treeAt = .ok tree ∧ tree.text = text := by
  change (do return (← value.unfoldBy store.treeAt).text : Except Fault String) = .ok text ↔ _
  constructor
  · intro ok
    obtain ⟨tree, unfolded, ok⟩ := bind_eq_ok ok
    exact ⟨tree, unfolded, Except.ok.inj ok⟩
  · rintro ⟨tree, unfolded, rfl⟩
    rw [unfolded]
    rfl

end Store

namespace Value

variable {store : Store} {x y : Value}

theorem text_tuple {items : List Value}
    (each : ∀ item ∈ items, store.text item = .ok (store.spelling item)) :
    store.text (.tuple items) =
      .ok ("(" ++ Tree.commaSeparated (items.map store.spelling) ++ ")") := by
  obtain ⟨trees, unfolded, written⟩ := unfoldAllBy_ok fun item member =>
    text_eq_ok_iff.mp (each item member)
  refine text_eq_ok_iff.mpr ⟨.tuple trees, ?_, ?_⟩
  · rw [unfoldBy, unfolded]
    rfl
  · rw [Tree.text, written]

theorem text_list (typed : store.Typed) {a : Addr} (isList : store.IsList a)
    (free : a ∉ store.lent)
    (each : ∀ item ∈ store.items a, store.text item = .ok (store.spelling item)) :
    store.text (.list a) =
      .ok ("[" ++ Tree.commaSeparated ((store.items a).map store.spelling) ++ "]") := by
  obtain ⟨trees, unfolded, written⟩ := unfoldAllBy_ok fun item member =>
    text_eq_ok_iff.mp (each item member)
  refine text_eq_ok_iff.mpr ⟨.list trees, ?_, ?_⟩
  · rw [unfoldBy, treeAt_eq typed isList.lt_size, readPayload_list isList free]
    change followPayload noteParent store.treeAt a (.list (store.items a)) = _
    rw [followPayload, unfolded]
    rfl
  · rw [Tree.text, written]

theorem text_map (typed : store.Typed) {a : Addr} (isScope : store.IsScope a)
    (free : a ∉ store.lent)
    (each : ∀ entry ∈ (store.scope a).bindings.entries,
      store.text entry.2 = .ok (store.spelling entry.2)) :
    store.text (.map a) = .ok (Tree.bindingsText
      ((store.scope a).bindings.entries.map fun entry => (entry.1, store.spelling entry.2))) := by
  obtain ⟨trees, unfolded, written⟩ := unfoldEntriesBy_ok fun entry member =>
    text_eq_ok_iff.mp (each entry member)
  refine text_eq_ok_iff.mpr ⟨.map (store.scope a).parent trees, ?_, ?_⟩
  · rw [unfoldBy, treeAt_eq typed isScope.lt_size, readPayload_scope isScope free]
    change followPayload noteParent store.treeAt a (.scope (store.scope a)) = _
    rw [followPayload, unfolded]
    rfl
  · rw [Tree.text, written]

theorem Ends.text_eq (typed : store.Typed) (ends : x.Ends store) :
    store.text x = .ok (store.spelling x) := by
  have spelled : ∀ {value : Value} {text : String}, store.text value = .ok text →
      store.text value = .ok (store.spelling value) := by
    intro value text ok
    rw [spelling, ok]
  induction ends with
  | scalar x => rfl
  | tuple _ inductionHypothesis => exact spelled (text_tuple inductionHypothesis)
  | list isList free _ inductionHypothesis =>
      exact spelled (text_list typed isList free inductionHypothesis)
  | map isScope free _ inductionHypothesis =>
      exact spelled (text_map typed isScope free inductionHypothesis)

/-! ## What a plain form is made of -/

theorem spelling_of_text {text : String} (ok : store.text x = .ok text) :
    store.spelling x = text := by
  rw [spelling, ok]

theorem spelling_tuple (typed : store.Typed) {items : List Value}
    (each : ∀ item ∈ items, item.Ends store) :
    store.spelling (.tuple items) =
      "(" ++ Tree.commaSeparated (items.map store.spelling) ++ ")" :=
  spelling_of_text (text_tuple fun item member => (each item member).text_eq typed)

theorem spelling_list (typed : store.Typed) {a : Addr} (isList : store.IsList a)
    (free : a ∉ store.lent) (each : ∀ item ∈ store.items a, item.Ends store) :
    store.spelling (.list a) =
      "[" ++ Tree.commaSeparated ((store.items a).map store.spelling) ++ "]" :=
  spelling_of_text (text_list typed isList free fun item member => (each item member).text_eq typed)

theorem spelling_map (typed : store.Typed) {a : Addr} (isScope : store.IsScope a)
    (free : a ∉ store.lent)
    (each : ∀ entry ∈ (store.scope a).bindings.entries, entry.2.Ends store) :
    store.spelling (.map a) = Tree.bindingsText
      ((store.scope a).bindings.entries.map fun entry => (entry.1, store.spelling entry.2)) :=
  spelling_of_text <|
    text_map typed isScope free fun entry member => (each entry member).text_eq typed

end Value

/-! ## Bindings in the order of their keys -/

namespace Tree

theorem byKey_perm (bindings : List (String × String)) : (byKey bindings).Perm bindings :=
  List.mergeSort_perm _ _

theorem pairwise_byKey (bindings : List (String × String)) :
    (byKey bindings).Pairwise fun earlier later => earlier.1 ≤ later.1 := by
  have sorted : (byKey bindings).Pairwise fun earlier later =>
      decide (earlier.1 ≤ later.1) = true := by
    apply List.pairwise_mergeSort
    · intro x y z first second
      exact decide_eq_true (String.le_trans (of_decide_eq_true first) (of_decide_eq_true second))
    · intro x y
      simpa using String.le_total x.1 y.1
  exact sorted.imp of_decide_eq_true

/-- The plain form of a map does not depend on the order of its bindings. -/
theorem bindingsText_eq_of_perm {bindings other : List (String × String)}
    (perm : bindings.Perm other) (distinct : (bindings.map Prod.fst).Nodup) :
    bindingsText bindings = bindingsText other := by
  have sorted : byKey bindings = byKey other := by
    refine List.Perm.eq_of_pairwise ?_ (pairwise_byKey bindings) (pairwise_byKey other)
      ((byKey_perm bindings).trans (perm.trans (byKey_perm other).symm))
    intro first second left right le leBack
    have inFirst := (byKey_perm bindings).mem_iff.mp left
    have inSecond := perm.mem_iff.mpr ((byKey_perm other).mem_iff.mp right)
    exact List.inj_on_of_nodup_map distinct inFirst inSecond (String.le_antisymm le leBack)
  have empty : bindings.isEmpty = other.isEmpty := by
    rw [Bool.eq_iff_iff, List.isEmpty_iff, List.isEmpty_iff, ← List.length_eq_zero_iff,
      ← List.length_eq_zero_iff, perm.length_eq]
  rw [bindingsText, bindingsText, sorted, empty]

end Tree

/-! ## Equal values -/

def Value.isNegativeZero : Value → Bool
  | .scalar (.num x) => x.isZero && x.negative
  | _ => false

theorem Double.eq_of_zeros {x y : Double} (left : x.isZero = true) (right : y.isZero = true)
    (signs : x.negative = y.negative) : x = y := by
  have zero := fields_of_isZero left
  have zeroToo := fields_of_isZero right
  exact eq_of_fields signs (zero.1.trans zeroToo.1.symm) (zero.2.trans zeroToo.2.symm)

theorem Scalar.eq_of_equal {x y : Scalar} (equal : x.equal y = true)
    (left : (Value.scalar x).isNegativeZero = false)
    (right : (Value.scalar y).isNegativeZero = false) : x = y := by
  rw [equal_iff] at equal
  rcases equal with ⟨same, _⟩ | ⟨zero, zeroToo⟩
  · exact same
  · cases x <;> cases y <;> simp only [isZero, Bool.false_eq_true] at zero zeroToo
    simp only [Value.isNegativeZero, zero, zeroToo, Bool.true_and] at left right
    rw [Double.eq_of_zeros zero zeroToo (left.trans right.symm)]

namespace Value

variable {store : Store} {x y : Value}

theorem map_eq_of_each {β : Type} {f : Value → β} {xs ys : List Value}
    (length : xs.length = ys.length)
    (each : ∀ (i : Nat) (x y : Value), xs[i]? = some x → ys[i]? = some y → f x = f y) :
    xs.map f = ys.map f := by
  refine List.ext_getElem (by simpa using length) fun i left right => ?_
  rw [List.length_map] at left right
  rw [List.getElem_map, List.getElem_map]
  exact each i _ _ (List.getElem?_eq_getElem left) (List.getElem?_eq_getElem right)

/-- Two tables with the same keys and the same texts under them are the same up to order. -/
theorem bindings_perm {table other : Table Value} (distinct : table.keys.Nodup)
    (distinctToo : other.keys.Nodup) (keys : ∀ key, key ∈ table.keys ↔ key ∈ other.keys)
    {f : Value → String}
    (each : ∀ key x y, table.get? key = some x → other.get? key = some y → f x = f y) :
    (table.entries.map fun entry => (entry.1, f entry.2)).Perm
      (other.entries.map fun entry => (entry.1, f entry.2)) := by
  have subset : ∀ {table other : Table Value}, table.keys.Nodup →
      (∀ key, key ∈ table.keys → key ∈ other.keys) →
      (∀ key x y, table.get? key = some x → other.get? key = some y → f x = f y) →
        ∀ binding ∈ table.entries.map fun entry => (entry.1, f entry.2),
          binding ∈ other.entries.map fun entry => (entry.1, f entry.2) := by
    intro table other distinct keys each binding member
    obtain ⟨⟨key, x⟩, stored, rfl⟩ := List.mem_map.mp member
    obtain ⟨y, bound⟩ := Table.mem_keys_iff.mp (keys key (List.mem_map_of_mem stored))
    rw [each key x y (Table.get?_of_mem distinct stored) bound]
    exact List.mem_map.mpr ⟨(key, y), Table.mem_of_get? bound, rfl⟩
  have nodup : ∀ {table : Table Value}, table.keys.Nodup →
      (table.entries.map fun entry => (entry.1, f entry.2)).Nodup := by
    intro table distinct
    refine List.Nodup.of_map Prod.fst ?_
    rw [List.map_map]
    exact distinct
  refine (List.perm_ext_iff_of_nodup (nodup distinct) (nodup distinctToo)).mpr fun binding => ?_
  exact ⟨subset distinct (fun key => (keys key).mp) each binding,
    subset distinctToo (fun key => (keys key).mpr)
      (fun key x y left right => (each key y x right left).symm) binding⟩

/-- Equal values without a negative zero have the same plain form. -/
theorem Alike.spelling_eq (sound : store.Sound) (alike : Alike equality store x y)
    (ends : x.Ends store) (endsToo : y.Ends store)
    (clean : x.Throughout store (·.isNegativeZero = false))
    (cleanToo : y.Throughout store (·.isNegativeZero = false)) :
    store.spelling x = store.spelling y := by
  have typed := sound.toTyped
  induction alike with
  | scalar alike => rw [Scalar.eq_of_equal alike clean.self cleanToo.self]
  | tuple length _ inductionHypothesis =>
      cases ends with | tuple each =>
      cases endsToo with | tuple eachToo =>
      rw [spelling_tuple typed each, spelling_tuple typed eachToo, map_eq_of_each length]
      intro i x y left right
      have member := List.mem_of_getElem? left
      have memberToo := List.mem_of_getElem? right
      exact inductionHypothesis i x y left right (each x member) (eachToo y memberToo)
        (clean.element x member) (cleanToo.element y memberToo)
  | list length _ inductionHypothesis =>
      cases ends with | list isList free each =>
      cases endsToo with | list isListToo freeToo eachToo =>
      rw [spelling_list typed isList free each, spelling_list typed isListToo freeToo eachToo,
        map_eq_of_each length]
      intro i x y left right
      have member := List.mem_of_getElem? left
      have memberToo := List.mem_of_getElem? right
      exact inductionHypothesis i x y left right (each x member) (eachToo y memberToo)
        (clean.item x member) (cleanToo.item y memberToo)
  | @map a b parents keys _ inductionHypothesis =>
      cases ends with | map isScope free each =>
      cases endsToo with | map isScopeToo freeToo eachToo =>
      rw [spelling_map typed isScope free each, spelling_map typed isScopeToo freeToo eachToo]
      refine Tree.bindingsText_eq_of_perm (bindings_perm (sound.keys a) (sound.keys b) keys ?_) ?_
      · intro key x y left right
        have member := Table.mem_of_get? left
        have memberToo := Table.mem_of_get? right
        exact inductionHypothesis key x y left right (each _ member) (eachToo _ memberToo)
          (clean.binding _ member) (cleanToo.binding _ memberToo)
      · rw [List.map_map]
        exact sound.keys a
  | oneList => rfl
  | oneMap => rfl

end Value

end ScopedValues
