import ScopedValues.Proofs.Views.Spelling

/-!
Contract: what can be seen of declaration orders.

Owns storage that differs from other storage in the bindings of scopes, and storage that differs
from it in their order only.

Main statement: values have the same cycles, the same plain forms and the same comparisons in
storage that differs in declaration orders, and so has everything inside them.
-/

set_option autoImplicit false

namespace ScopedValues

/-! ## Tables with the same bindings -/

namespace Table

variable {α : Type} {table other : Table α}

theorem keys_perm (perm : table.entries.Perm other.entries) : table.keys.Perm other.keys :=
  perm.map Prod.fst

theorem get?_of_perm (perm : table.entries.Perm other.entries) (distinct : table.keys.Nodup)
    (key : String) : table.get? key = other.get? key := by
  have distinctToo : other.keys.Nodup := (keys_perm perm).nodup distinct
  cases bound : table.get? key with
  | some value => exact (get?_of_mem distinctToo (perm.mem_iff.mp (mem_of_get? bound))).symm
  | none =>
      rw [get?_eq_none_iff, (keys_perm perm).mem_iff] at bound
      exact ((get?_eq_none_iff other key).mpr bound).symm

/-- Tables in which all keys mean the same have the same entries in some order. -/
theorem entries_perm (distinct : table.keys.Nodup) (distinctToo : other.keys.Nodup)
    (same : ∀ key, table.get? key = other.get? key) : table.entries.Perm other.entries := by
  refine (List.perm_ext_iff_of_nodup (.of_map Prod.fst distinct)
    (.of_map Prod.fst distinctToo)).mpr fun ⟨key, value⟩ => ⟨fun member => ?_, fun member => ?_⟩
  · exact mem_of_get? ((same key).symm.trans (get?_of_mem distinct member))
  · exact mem_of_get? ((same key).trans (get?_of_mem distinctToo member))

/-- Nothing but the keys and what they mean makes up a table. -/
theorem eq_of_keys (distinct : table.keys.Nodup) (keys : table.keys = other.keys)
    (same : ∀ key, table.get? key = other.get? key) : table = other := by
  have length : table.entries.length = other.entries.length := by
    simpa [Table.keys] using congrArg List.length keys
  have entries : table.entries = other.entries := by
    refine List.ext_getElem length fun i left right => ?_
    have key : table.entries[i].1 = other.entries[i].1 := by
      have here := congrArg (·[i]?) keys
      simpa [Table.keys, left, right] using here
    have bound : table.get? table.entries[i].1 = some table.entries[i].2 :=
      get?_of_mem distinct (List.getElem_mem left)
    have boundToo : other.get? other.entries[i].1 = some other.entries[i].2 :=
      get?_of_mem (keys ▸ distinct) (List.getElem_mem right)
    rw [same, key, boundToo] at bound
    exact Prod.ext key (Option.some.inj bound).symm
  exact congrArg Table.mk entries

end Table

/-! ## Storage with other bindings -/

namespace Store

variable {store other : Store} {a : Addr}

/-- `other` differs from `store` at most in the bindings of scopes. -/
structure Rebinds (store other : Store) : Prop where
  size : other.size = store.size
  lent : other.lent = store.lent
  scopes : ∀ a, other.IsScope a ↔ store.IsScope a
  parents : ∀ a, (other.scope a).parent = (store.scope a).parent
  payloads : ∀ a, ¬ store.IsScope a → other.payloads[a]? = store.payloads[a]?

namespace Rebinds

theorem refl (store : Store) : store.Rebinds store :=
  ⟨rfl, rfl, fun _ => Iff.rfl, fun _ => rfl, fun _ _ => rfl⟩

theorem symm (rebinds : store.Rebinds other) : other.Rebinds store where
  size := rebinds.size.symm
  lent := rebinds.lent.symm
  scopes a := (rebinds.scopes a).symm
  parents a := (rebinds.parents a).symm
  payloads a noScope := (rebinds.payloads a (mt (rebinds.scopes a).mpr noScope)).symm

theorem trans {middle : Store} (first : store.Rebinds middle) (second : middle.Rebinds other) :
    store.Rebinds other where
  size := second.size.trans first.size
  lent := second.lent.trans first.lent
  scopes a := (second.scopes a).trans (first.scopes a)
  parents a := (second.parents a).trans (first.parents a)
  payloads a noScope :=
    (second.payloads a (mt (first.scopes a).mp noScope)).trans (first.payloads a noScope)

theorem isList (rebinds : store.Rebinds other) (isList : store.IsList a) : other.IsList a := by
  have noScope : ¬ store.IsScope a := by
    rintro ⟨inner, stored⟩
    simp [isList.payload_eq] at stored
  rw [IsList, rebinds.payloads a noScope]
  exact isList

theorem items_eq (rebinds : store.Rebinds other) (a : Addr) : other.items a = store.items a := by
  by_cases isScope : store.IsScope a
  · have isScopeToo := (rebinds.scopes a).mpr isScope
    simp only [items, isScope.payload_eq, isScopeToo.payload_eq]
  · simp only [items, rebinds.payloads a isScope]

theorem retains (rebinds : store.Rebinds other) : store.Retains other where
  size := rebinds.size.ge
  lists _ := rebinds.isList
  scopes a := (rebinds.scopes a).mpr
  parents a _ := rebinds.parents a

/-- Storage that has the same bindings too is the same. -/
theorem eq_of_bindings (rebinds : store.Rebinds other)
    (same : ∀ a, (other.scope a).bindings = (store.scope a).bindings) : other = store := by
  have payloads : other.payloads = store.payloads := by
    refine Array.ext_getElem? fun a => ?_
    by_cases isScope : store.IsScope a
    · have isScopeToo := (rebinds.scopes a).mpr isScope
      have scope : other.scope a = store.scope a :=
        congrArg₂ Scope.mk (same a) (rebinds.parents a)
      rw [isScope.payload_eq, isScopeToo.payload_eq, scope]
    · exact rebinds.payloads a isScope
  exact congrArg₂ Store.mk payloads rebinds.lent

end Rebinds

theorem rebinds_setBindings (isScope : store.IsScope a) (changed : Table Value) :
    store.Rebinds (store.setBindings a changed) where
  size := size_setBindings store a changed
  lent := rfl
  scopes b := by
    by_cases same : b = a
    · subst same
      exact iff_of_true ⟨_, payload_setBindings_self store b changed isScope.lt_size⟩ isScope
    · rw [IsScope, IsScope, payload_setBindings_of_ne store a b changed same]
  parents b := parent_setBindings store a b changed
  payloads b noScope := payload_setBindings_of_ne store a b changed fun same =>
    noScope (same ▸ isScope)

theorem rebinds_setEntry (isScope : store.IsScope a) (key : String) (value : Value) :
    store.Rebinds (store.setEntry a key value) :=
  rebinds_setBindings isScope _

/-! ## Storage with other declaration orders -/

/-- `other` differs from `store` at most in the order of the bindings of scopes. -/
structure Reorders (store other : Store) : Prop extends Rebinds store other where
  entries : ∀ a, (other.scope a).bindings.entries.Perm (store.scope a).bindings.entries

namespace Reorders

theorem symm (reorders : store.Reorders other) : other.Reorders store where
  toRebinds := reorders.toRebinds.symm
  entries a := (reorders.entries a).symm

theorem keys (reorders : store.Reorders other) (a : Addr) :
    (other.scope a).bindings.keys.Perm (store.scope a).bindings.keys :=
  Table.keys_perm (reorders.entries a)

theorem get?_eq (reorders : store.Reorders other) (sound : store.Sound) (a : Addr)
    (key : String) :
    (other.scope a).bindings.get? key = (store.scope a).bindings.get? key :=
  (Table.get?_of_perm (reorders.entries a).symm (sound.keys a) key).symm

theorem values (reorders : store.Reorders other) (a : Addr) :
    (other.values a).Perm (store.values a) := by
  by_cases isScope : store.IsScope a
  · have isScopeToo := (reorders.scopes a).mpr isScope
    rw [values_of_payload isScope.payload_eq, values_of_payload isScopeToo.payload_eq]
    exact (reorders.entries a).map Prod.snd
  · rw [values_eq_of_payload (reorders.payloads a isScope)]

theorem edge (reorders : store.Reorders other) {b : Addr} (edge : store.Edge a b) :
    other.Edge a b := by
  obtain ⟨value, stored, named⟩ := edge
  exact ⟨value, (reorders.values a).mem_iff.mpr stored, named⟩

end Reorders

end Store

/-! ## What is seen of values -/

namespace Value

open Store

variable {store other : Store} {x y : Value}

theorem Acyclic.reorder (acyclic : x.Acyclic store) (reorders : store.Reorders other) :
    x.Acyclic other := by
  have edges : other.Edge ≤ store.Edge := fun _ _ => reorders.symm.edge
  intro a named b reaches itself
  exact acyclic a named b (Relation.ReflTransGen.mono edges _ _ reaches)
    (Relation.TransGen.mono edges _ _ itself)

theorem Ends.reorder (ends : x.Ends store) (reorders : store.Reorders other) : x.Ends other := by
  induction ends with
  | scalar x => exact .scalar x
  | tuple _ inductionHypothesis => exact .tuple inductionHypothesis
  | list isList free _ inductionHypothesis =>
      refine .list (reorders.isList isList) (by rwa [reorders.lent]) ?_
      rwa [reorders.items_eq]
  | map isScope free _ inductionHypothesis =>
      refine .map ((reorders.scopes _).mpr isScope) (by rwa [reorders.lent]) fun entry member => ?_
      exact inductionHypothesis entry ((reorders.entries _).mem_iff.mp member)

/-- A value that ends has one plain form, whatever the declaration orders of its maps. -/
theorem Ends.spelling_reorder (ends : x.Ends store) (sound : store.Sound)
    (soundToo : other.Sound) (reorders : store.Reorders other) :
    other.spelling x = store.spelling x := by
  have typed := sound.toTyped
  have typedToo := soundToo.toTyped
  induction ends with
  | scalar x => rfl
  | tuple each inductionHypothesis =>
      rw [spelling_tuple typed each,
        spelling_tuple typedToo fun item member => (each item member).reorder reorders,
        List.map_congr_left inductionHypothesis]
  | @list a isList free each inductionHypothesis =>
      have ends := (Ends.list isList free each).reorder reorders
      cases ends with | list isListToo freeToo eachToo =>
      rw [spelling_list typed isList free each, spelling_list typedToo isListToo freeToo eachToo,
        reorders.items_eq, List.map_congr_left inductionHypothesis]
  | @map a isScope free each inductionHypothesis =>
      have ends := (Ends.map isScope free each).reorder reorders
      cases ends with | map isScopeToo freeToo eachToo =>
      rw [spelling_map typed isScope free each, spelling_map typedToo isScopeToo freeToo eachToo]
      -- First the texts of the bindings are the same, and then their order does not matter.
      have spelled : ((other.scope a).bindings.entries.map fun entry =>
            (entry.1, other.spelling entry.2)) =
          (other.scope a).bindings.entries.map fun entry => (entry.1, store.spelling entry.2) :=
        List.map_congr_left fun entry member => Prod.ext rfl
          (inductionHypothesis entry ((reorders.entries a).mem_iff.mp member))
      rw [spelled]
      refine Tree.bindingsText_eq_of_perm ((reorders.entries a).map _) ?_
      rw [List.map_map]
      exact soundToo.keys a

theorem Alike.reorder {likeness : Likeness} (alike : Alike likeness store x y)
    (sound : store.Sound) (reorders : store.Reorders other) : Alike likeness other x y := by
  induction alike with
  | scalar alike => exact .scalar alike
  | tuple length _ inductionHypothesis => exact .tuple length inductionHypothesis
  | list length _ inductionHypothesis =>
      refine .list ?_ ?_
      · rwa [reorders.items_eq, reorders.items_eq]
      · rwa [reorders.items_eq, reorders.items_eq]
  | @map a b parents keys _ inductionHypothesis =>
      refine .map ?_ (fun key => ?_) fun key x y left right => ?_
      · rwa [reorders.parents, reorders.parents]
      · rw [(reorders.keys a).mem_iff, (reorders.keys b).mem_iff]
        exact keys key
      · rw [reorders.get?_eq sound] at left right
        exact inductionHypothesis key x y left right
  | oneList unseen a => exact .oneList unseen a
  | oneMap unseen a => exact .oneMap unseen a

end Value

namespace Store

open Likeness

/-- Nothing that is seen of values tells the two apart. -/
structure LooksLike (store other : Store) : Prop where
  acyclic : ∀ x : Value, x.Acyclic other ↔ x.Acyclic store
  text : ∀ x : Value, store.Readable x →
    ∃ text, store.text x = .ok text ∧ other.text x = .ok text
  equal : ∀ x y : Value, store.Readable x → store.Readable y →
    ∃ answer, store.equal x y = .ok answer ∧ other.equal x y = .ok answer

theorem Reorders.looksLike {store other : Store} (reorders : store.Reorders other)
    (sound : store.Sound) (soundToo : other.Sound) : store.LooksLike other where
  acyclic x :=
    ⟨fun acyclic => acyclic.reorder reorders.symm, fun acyclic => acyclic.reorder reorders⟩
  text x readable := by
    have ends := readable.ends sound.toTyped
    refine ⟨store.spelling x, ends.text_eq sound.toTyped, ?_⟩
    rw [(ends.reorder reorders).text_eq soundToo.toTyped,
      ends.spelling_reorder sound soundToo reorders]
  equal x y readable readableToo := by
    have ends := readable.ends sound.toTyped
    have endsToo := readableToo.ends sound.toTyped
    have decides := ends.decides_equal sound endsToo
    have same : store.equal x y = other.equal x y :=
      decides.eq_of_iff ((ends.reorder reorders).decides_equal soundToo (endsToo.reorder reorders))
        ⟨fun alike => alike.reorder sound reorders,
          fun alike => alike.reorder soundToo reorders.symm⟩
    obtain ⟨answer, compared, _⟩ := decides
    exact ⟨answer, compared, same.symm.trans compared⟩

end Store

end ScopedValues
