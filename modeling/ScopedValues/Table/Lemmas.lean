import ScopedValues.Table

/-!
Contract: what each operation on a table does to its entries and its keys.

Main statements: overwriting keeps every key in its place and declaring adds one at
the end; removal keeps the order of the rest; no operation repeats a key; and an
operation on one key is not seen through another.
-/

set_option autoImplicit false

namespace ScopedValues.Table

variable {α : Type}

/-! ## Membership -/

theorem contains_iff_mem_keys (table : Table α) (key : String) :
    table.contains key = true ↔ key ∈ table.keys := by
  simp [contains, keys]

theorem get?_eq_none_iff (table : Table α) (key : String) :
    table.get? key = none ↔ key ∉ table.keys := by
  simp only [get?, keys, Option.map_eq_none_iff, List.find?_eq_none, List.mem_map, beq_iff_eq,
    not_exists, not_and]

theorem isSome_get? (table : Table α) (key : String) :
    (table.get? key).isSome = table.contains key := by
  have absent := get?_eq_none_iff table key
  have present := contains_iff_mem_keys table key
  cases found : table.get? key <;> cases bound : table.contains key <;> simp_all

/-! ## Reading after a change -/

@[simp] theorem get?_empty (key : String) : (empty : Table α).get? key = none := rfl

@[simp] theorem get?_insert_self (table : Table α) (key : String) (entry : α) :
    (table.insert key entry).get? key = some entry := by
  obtain ⟨entries⟩ := table
  induction entries with
  | nil => simp [get?, insert, insert.place]
  | cons head rest inductionHypothesis =>
      simp only [get?, insert] at inductionHypothesis
      by_cases same : head.1 = key
      · simp [get?, insert, insert.place, same]
      · simpa [get?, insert, insert.place, same] using inductionHypothesis

theorem get?_insert_of_ne (table : Table α) (key other : String) (entry : α)
    (different : other ≠ key) :
    (table.insert key entry).get? other = table.get? other := by
  obtain ⟨entries⟩ := table
  induction entries with
  | nil => simp [get?, insert, insert.place, Ne.symm different]
  | cons head rest inductionHypothesis =>
      simp only [get?, insert] at inductionHypothesis
      by_cases same : head.1 = key
      · simp [get?, insert, insert.place, same, Ne.symm different]
      · by_cases here : head.1 = other
        · simp [get?, insert, insert.place, here, different]
        · simpa [get?, insert, insert.place, same, here] using inductionHypothesis

/-- What is overwritten leaves nothing behind. -/
theorem insert_insert (table : Table α) (key : String) (first entry : α) :
    (table.insert key first).insert key entry = table.insert key entry := by
  obtain ⟨entries⟩ := table
  show (⟨insert.place key entry (insert.place key first entries)⟩ : Table α) = _
  congr 1
  induction entries with
  | nil => simp [insert.place]
  | cons head rest inductionHypothesis =>
      by_cases same : head.1 = key
      · simp [insert.place, same]
      · simp [insert.place, same, inductionHypothesis]

/-- To overwrite an entry with itself changes nothing. -/
theorem insert_of_get? {table : Table α} {key : String} {entry : α}
    (bound : table.get? key = some entry) : table.insert key entry = table := by
  obtain ⟨entries⟩ := table
  show (⟨insert.place key entry entries⟩ : Table α) = ⟨entries⟩
  congr 1
  induction entries with
  | nil => cases bound
  | cons head rest inductionHypothesis =>
      simp only [get?] at inductionHypothesis bound
      by_cases same : head.1 = key
      · simp [same] at bound
        simp [insert.place, ← same, ← bound]
      · rw [List.find?_cons_of_neg (by simpa using same)] at bound
        simp [insert.place, same, inductionHypothesis bound]

theorem get?_erase_of_ne (table : Table α) (key other : String) (different : other ≠ key) :
    (table.erase key).get? other = table.get? other := by
  obtain ⟨entries⟩ := table
  induction entries with
  | nil => rfl
  | cons head rest inductionHypothesis =>
      simp only [get?, erase] at inductionHypothesis
      by_cases same : head.1 = key
      · simp [get?, erase, same, Ne.symm different]
      · by_cases here : head.1 = other
        · simp [get?, erase, here, different]
        · simpa [get?, erase, List.eraseP_cons, same, here] using inductionHypothesis

/-! ## Declaration order -/

@[simp] theorem keys_empty : (empty : Table α).keys = [] := rfl

theorem keys_insert (table : Table α) (key : String) (entry : α) :
    (table.insert key entry).keys =
      if key ∈ table.keys then table.keys else table.keys ++ [key] := by
  obtain ⟨entries⟩ := table
  induction entries with
  | nil => simp [keys, insert, insert.place]
  | cons head rest inductionHypothesis =>
      simp only [keys, insert] at inductionHypothesis
      by_cases same : head.1 = key
      · simp [keys, insert, insert.place, same]
      · by_cases later : key ∈ rest.map Prod.fst
        · simp [keys, insert, insert.place, same, inductionHypothesis, later]
        · simp [keys, insert, insert.place, same, inductionHypothesis, later, Ne.symm same]

theorem keys_erase (table : Table α) (key : String) :
    (table.erase key).keys = table.keys.erase key := by
  obtain ⟨entries⟩ := table
  induction entries with
  | nil => rfl
  | cons head rest inductionHypothesis =>
      simp only [keys, erase] at inductionHypothesis
      by_cases same : head.1 = key
      · simp [keys, erase, same]
      · simp [keys, erase, same, inductionHypothesis]

theorem keys_declare (table : Table α) (key : String) (entry : α) :
    (table.declare key entry).keys =
      if key ∈ table.keys then table.keys else table.keys ++ [key] := by
  by_cases bound : key ∈ table.keys
  · simp [declare, (contains_iff_mem_keys table key).mpr bound, bound]
  · have unbound : table.contains key = false := by
      simpa using mt (contains_iff_mem_keys table key).mp bound
    rw [declare, unbound, if_neg Bool.false_ne_true, if_neg bound]
    simp [keys]

/-! ## Keys are distinct -/

theorem nodup_keys_insert (table : Table α) (key : String) (entry : α)
    (distinct : table.keys.Nodup) : (table.insert key entry).keys.Nodup := by
  rw [keys_insert]
  split
  · exact distinct
  · next fresh =>
      rw [List.nodup_append]
      refine ⟨distinct, by simp, ?_⟩
      intro old member new last same
      rw [List.mem_singleton.mp last] at same
      exact fresh (same ▸ member)

theorem nodup_keys_erase (table : Table α) (key : String)
    (distinct : table.keys.Nodup) : (table.erase key).keys.Nodup := by
  rw [keys_erase]
  exact distinct.erase key

theorem get?_erase_self (table : Table α) (key : String) (distinct : table.keys.Nodup) :
    (table.erase key).get? key = none := by
  rw [get?_eq_none_iff, keys_erase]
  exact distinct.not_mem_erase

/-- Declaring a key and then writing it is the same as writing it. -/
theorem insert_declare (table : Table α) (key : String) (first entry : α) :
    (table.declare key first).insert key entry = table.insert key entry := by
  by_cases bound : table.contains key = true
  · rw [declare, if_pos bound]
  · rw [declare, if_neg bound]
    obtain ⟨entries⟩ := table
    induction entries with
    | nil => simp [insert, insert.place]
    | cons head rest inductionHypothesis =>
        simp only [contains, List.any_cons, Bool.or_eq_true, not_or] at bound
        have same : ¬ head.1 = key := by simpa using bound.1
        have later := inductionHypothesis (by simpa [contains] using bound.2)
        simp only [insert, Table.mk.injEq] at later
        simp [insert, insert.place, same, later]

/-! ## Entries after a change -/

theorem mem_insert {table : Table α} {key : String} {value : α} {entry : String × α}
    (member : entry ∈ (table.insert key value).entries) :
    entry = (key, value) ∨ entry ∈ table.entries := by
  obtain ⟨entries⟩ := table
  change entry ∈ insert.place key value entries at member
  induction entries with
  | nil => exact Or.inl (List.mem_singleton.mp member)
  | cons head rest inductionHypothesis =>
      rw [insert.place] at member
      split at member
      · rcases List.mem_cons.mp member with rfl | later
        · exact Or.inl rfl
        · exact Or.inr (List.mem_cons_of_mem head later)
      · rcases List.mem_cons.mp member with rfl | later
        · exact Or.inr List.mem_cons_self
        · exact (inductionHypothesis later).imp_right (List.mem_cons_of_mem head)

theorem mem_erase {table : Table α} {key : String} {entry : String × α}
    (member : entry ∈ (table.erase key).entries) : entry ∈ table.entries :=
  List.mem_of_mem_eraseP member

theorem mem_declare {table : Table α} {key : String} {value : α} {entry : String × α}
    (member : entry ∈ (table.declare key value).entries) :
    entry = (key, value) ∨ entry ∈ table.entries := by
  unfold declare at member
  split at member
  · exact Or.inr member
  · rcases List.mem_append.mp member with old | new
    · exact Or.inr old
    · exact Or.inl (List.mem_singleton.mp new)

theorem nodup_keys_declare (table : Table α) (key : String) (value : α)
    (distinct : table.keys.Nodup) : (table.declare key value).keys.Nodup := by
  have same : (table.declare key value).keys = (table.insert key value).keys := by
    rw [keys_declare, keys_insert]
  rw [same]
  exact nodup_keys_insert table key value distinct

theorem mem_of_get? {table : Table α} {key : String} {value : α}
    (bound : table.get? key = some value) : (key, value) ∈ table.entries := by
  obtain ⟨entry, found, rfl⟩ := Option.map_eq_some_iff.mp bound
  have same : entry.1 = key := by simpa using List.find?_some found
  exact same ▸ List.mem_of_find?_eq_some found

theorem mem_keys_iff {table : Table α} {key : String} :
    key ∈ table.keys ↔ ∃ value, table.get? key = some value := by
  rw [← contains_iff_mem_keys, ← isSome_get?, Option.isSome_iff_exists]

theorem get?_of_mem {table : Table α} (distinct : table.keys.Nodup) {key : String} {value : α}
    (member : (key, value) ∈ table.entries) : table.get? key = some value := by
  obtain ⟨entries⟩ := table
  induction entries with
  | nil => cases member
  | cons head rest inductionHypothesis =>
      obtain ⟨headFresh, distinctRest⟩ := List.nodup_cons.mp distinct
      by_cases same : head.1 = key
      · rcases List.mem_cons.mp member with rfl | later
        · simp [get?]
        · exact absurd (same ▸ List.mem_map_of_mem later) headFresh
      · have later : (key, value) ∈ rest := by
          rcases List.mem_cons.mp member with rfl | later
          · exact absurd rfl same
          · exact later
        simpa [get?, same] using inductionHypothesis distinctRest later

/-- A key that was not bound is declared at the end. -/
theorem entries_insert_of_unbound {table : Table α} {key : String} (value : α)
    (unbound : table.get? key = none) :
    (table.insert key value).entries = table.entries ++ [(key, value)] := by
  have absent := (get?_eq_none_iff table key).mp unbound
  obtain ⟨entries⟩ := table
  change insert.place key value entries = entries ++ [(key, value)]
  induction entries with
  | nil => rfl
  | cons head rest inductionHypothesis =>
      obtain ⟨different, later⟩ := not_or.mp (mt List.mem_cons.mpr absent)
      have missing : (Table.mk rest).get? key = none := (get?_eq_none_iff _ key).mpr later
      rw [insert.place, if_neg (by simpa using Ne.symm different),
        inductionHypothesis missing later]
      rfl

/-- What is removed again was never there. -/
theorem erase_insert_of_unbound {table : Table α} {key : String} (value : α)
    (unbound : table.get? key = none) : (table.insert key value).erase key = table := by
  have absent : ∀ entry ∈ table.entries, entry.1 ≠ key := fun entry member same =>
    (get?_eq_none_iff table key).mp unbound (List.mem_map.mpr ⟨entry, member, same⟩)
  show (⟨(table.insert key value).entries.eraseP fun entry => entry.1 == key⟩ : Table α) = table
  rw [entries_insert_of_unbound value unbound,
    List.eraseP_append_right _ fun entry member => by simpa using absent entry member]
  simp

/-- Where a key is removed makes no difference to binding another one. -/
theorem erase_insert_of_ne (table : Table α) {key other : String} (entry : α)
    (different : other ≠ key) :
    (table.insert other entry).erase key = (table.erase key).insert other entry := by
  obtain ⟨entries⟩ := table
  show (⟨(insert.place other entry entries).eraseP _⟩ : Table α) =
    ⟨insert.place other entry (entries.eraseP _)⟩
  congr 1
  induction entries with
  | nil => simp [insert.place, different]
  | cons head rest inductionHypothesis =>
      by_cases same : head.1 = key
      · simp [insert.place, same, Ne.symm different]
      · by_cases here : head.1 = other
        · simp [insert.place, here, different]
        · simp [insert.place, here, same, inductionHypothesis]

theorem erase_erase_of_ne (table : Table α) {key other : String} (different : other ≠ key) :
    (table.erase other).erase key = (table.erase key).erase other := by
  have apart : ∀ entry ∈ table.entries,
      ¬ (entry.1 == other) = true ∨ ¬ (entry.1 == key) = true := by
    intro entry _
    by_cases here : entry.1 = other
    · exact .inr (by simpa [here] using different)
    · exact .inl (by simpa using here)
  exact congrArg Table.mk (List.eraseP_comm apart)

theorem declare_of_unbound {table : Table α} {key : String} (entry : α)
    (unbound : table.contains key = false) : table.declare key entry = table.insert key entry := by
  have missing : table.get? key = none := by
    rw [← Option.not_isSome_iff_eq_none, isSome_get?, unbound]
    exact Bool.false_ne_true
  rw [declare, if_neg (by simp [unbound]), ← entries_insert_of_unbound entry missing]

/-- A key that has been declared is bound as it was before, if it was. -/
theorem get?_declare_self (table : Table α) (key : String) (entry : α) :
    (table.declare key entry).get? key = some ((table.get? key).getD entry) := by
  cases bound : table.get? key with
  | some old =>
      have present : table.contains key = true := by rw [← isSome_get?, bound]; rfl
      rw [declare, if_pos present, bound]
      rfl
  | none =>
      have absent : table.contains key = false := by rw [← isSome_get?, bound]; rfl
      rw [declare_of_unbound entry absent, get?_insert_self]
      rfl

/-- Removing a key removes one entry. -/
theorem countP_entries_erase {table : Table α} {key : String} {value : α}
    (bound : table.get? key = some value) (counts : String × α → Bool) :
    table.entries.countP counts =
      (table.erase key).entries.countP counts + if counts (key, value) then 1 else 0 := by
  obtain ⟨entries⟩ := table
  change entries.countP counts = (entries.eraseP _).countP counts + _
  induction entries with
  | nil => simp [get?] at bound
  | cons head rest inductionHypothesis =>
      obtain ⟨name, held⟩ := head
      by_cases same : name = key
      · subst same
        obtain rfl : held = value := by simpa [get?] using bound
        rw [List.eraseP_cons_of_pos (by simp), List.countP_cons]
      · have later : (Table.mk rest).get? key = some value := by
          simpa [get?, same] using bound
        rw [List.eraseP_cons_of_neg (by simpa using same), List.countP_cons, List.countP_cons,
          inductionHypothesis later]
        omega

/-! ## Entries under other keys -/

/-- The entries of a table under other keys, in order. -/
def otherEntries (table : Table α) (key : String) : List (String × α) :=
  table.entries.filter fun entry => entry.1 != key

section OtherEntries

variable (table : Table α) (key : String)

theorem otherEntries_insert (value : α) :
    otherEntries (table.insert key value) key = otherEntries table key := by
  obtain ⟨entries⟩ := table
  change (insert.place key value entries).filter _ = entries.filter _
  induction entries with
  | nil => simp [insert.place]
  | cons head rest inductionHypothesis =>
      rw [insert.place]
      by_cases same : head.1 = key
      · simp [same]
      · simp only [beq_iff_eq, same, if_false, List.filter_cons, inductionHypothesis]

theorem otherEntries_erase : otherEntries (table.erase key) key = otherEntries table key := by
  obtain ⟨entries⟩ := table
  change (entries.eraseP _).filter _ = entries.filter _
  induction entries with
  | nil => rfl
  | cons head rest inductionHypothesis =>
      by_cases same : head.1 = key
      · simp [same]
      · rw [List.eraseP_cons_of_neg (by simpa using same), List.filter_cons, List.filter_cons,
          inductionHypothesis]

theorem get?_of_otherEntries {table other : Table α} {key second : String}
    (same : otherEntries table key = otherEntries other key) (different : second ≠ key) :
    table.get? second = other.get? second := by
  have found : ∀ table : Table α,
      (otherEntries table key).find? (fun entry => entry.1 == second) =
        table.entries.find? fun entry => entry.1 == second := by
    intro table
    rw [otherEntries, List.find?_filter]
    congr 1
    funext entry
    by_cases here : entry.1 = second
    · simp [here, different]
    · simp [here]
  unfold get?
  rw [← found table, ← found other, same]

end OtherEntries

end ScopedValues.Table
