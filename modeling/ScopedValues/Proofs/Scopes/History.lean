import Mathlib.Data.List.Induction
import ScopedValues.Proofs.Copies.Sharing
import ScopedValues.Table.Lemmas

/-!
Contract: the history of the bindings of a scope.

Owns what can happen to bindings, and what a history of it says: which keys are bound, when
each was declared, in which order they are listed, and what was written under them last.

Main statement: a table that comes about from the empty one lists each key that its history
leaves bound once, in the order in which they were declared last, with what was written last.

Does not own what makes a history happen.
-/

set_option autoImplicit false

namespace ScopedValues

/-- What can happen to the bindings of a scope. -/
inductive Deed where
  | bind (key : String) (value : Value)
  | erase (key : String)
  /-- A copy takes the place of the scope. -/
  | copied (before after : Store)

/-- What has happened to bindings, oldest first. -/
abbrev History := List Deed

namespace Deed

/-- What becomes of a table. -/
def Makes : Deed → Table Value → Table Value → Prop
  | .bind key value, before, after => after = before.insert key value
  | .erase key, before, after => after = before.erase key
  | .copied old new, before, after => after.keys = before.keys ∧
      CopiedAll old new .plain (before.entries.map Prod.snd) (after.entries.map Prod.snd)

/-- Whether a key is bound afterwards. -/
def leaves (key : String) : Deed → Bool → Bool
  | .bind other _, bound => other == key || bound
  | .erase other, bound => other != key && bound
  | .copied _ _, bound => bound

/-- Whether a key is written or removed. -/
def concerns (key : String) : Deed → Bool
  | .bind other _ => other == key
  | .erase other => other == key
  | .copied _ _ => false

/-- What becomes of a list of keys: one that is declared comes last, and no other moves. -/
def relist (keys : List String) : Deed → List String
  | .bind key _ => if key ∈ keys then keys else keys ++ [key]
  | .erase key => keys.erase key
  | .copied _ _ => keys

/-- What becomes of a value that stays where it is. -/
def Renews : Deed → Value → Value → Prop
  | .copied old new, source, value => Copied old new .plain source value
  | _, source, value => value = source

end Deed

namespace History

/-! ## What a history says -/

/-- What becomes of a table. -/
def Makes : History → Table Value → Table Value → Prop
  | [], before, after => after = before
  | deed :: rest, before, after => ∃ middle, deed.Makes before middle ∧ Makes rest middle after

/-- Whether a key that was unbound at first is bound in the end. -/
def binds (history : History) (key : String) : Bool :=
  history.foldl (fun bound deed => deed.leaves key bound) false

/-- At this step the key goes from unbound to bound. -/
structure Declares (history : History) (key : String) (step : Nat) : Prop where
  present : step < history.length
  before : binds (history.take step) key = false
  after : binds (history.take (step + 1)) key = true

/-- At this step the key goes from unbound to bound for the last time. -/
structure DeclaredAt (history : History) (key : String) (step : Nat) : Prop where
  declares : history.Declares key step
  last : ∀ later, history.Declares key later → later ≤ step

/-- What becomes of a value that is not written again. -/
def Renews : History → Value → Value → Prop
  | [], source, value => value = source
  | deed :: rest, source, value => ∃ middle, deed.Renews source middle ∧ Renews rest middle value

/-- The value is what was written last under the key, or the copy of it. -/
def Written (history : History) (key : String) (value : Value) : Prop :=
  ∃ earlier source later, history = earlier ++ .bind key source :: later ∧
    (∀ deed ∈ later, deed.concerns key = false) ∧ Renews later source value

/-- The keys stand in the order in which they were declared last. -/
structure InOrder (history : History) (keys : List String) : Prop where
  dated : ∀ key ∈ keys, ∃ step, history.DeclaredAt key step
  ordered : keys.Pairwise fun earlier later => ∀ first second,
    history.DeclaredAt earlier first → history.DeclaredAt later second → first < second

/-- The table is the one that a history tells of which began with no binding. -/
structure Told (history : History) (table : Table Value) : Prop where
  distinct : table.keys.Nodup
  bound : ∀ key, key ∈ table.keys ↔ history.binds key = true
  inOrder : history.InOrder table.keys
  listed : table.keys = history.foldl Deed.relist []
  written : ∀ key value, table.get? key = some value → history.Written key value

/-! ## One deed more -/

section Snoc

variable {history : History} {deed : Deed} {key : String}

theorem makes_append {further : History} {before after : Table Value} :
    Makes (history ++ further) before after ↔
      ∃ middle, Makes history before middle ∧ Makes further middle after := by
  induction history generalizing before with
  | nil => simp [Makes]
  | cons deed rest inductionHypothesis =>
      simp only [List.cons_append, Makes, inductionHypothesis]
      constructor
      · rintro ⟨first, made, second, rest, last⟩
        exact ⟨second, ⟨first, made, rest⟩, last⟩
      · rintro ⟨second, ⟨first, made, rest⟩, last⟩
        exact ⟨first, made, second, rest, last⟩

theorem makes_singleton {before after : Table Value} :
    Makes [deed] before after ↔ deed.Makes before after := by
  simp [Makes]

theorem renews_snoc {source value : Value} :
    Renews (history ++ [deed]) source value ↔
      ∃ middle, Renews history source middle ∧ deed.Renews middle value := by
  induction history generalizing source with
  | nil => simp [Renews]
  | cons first rest inductionHypothesis =>
      simp only [List.cons_append, Renews, inductionHypothesis]
      constructor
      · rintro ⟨renewed, here, middle, onward, last⟩
        exact ⟨middle, ⟨renewed, here, onward⟩, last⟩
      · rintro ⟨middle, ⟨renewed, here, onward⟩, last⟩
        exact ⟨renewed, here, middle, onward, last⟩

theorem binds_snoc (history : History) (deed : Deed) (key : String) :
    binds (history ++ [deed]) key = deed.leaves key (binds history key) := by
  simp [binds]

theorem declares_snoc {step : Nat} :
    Declares (history ++ [deed]) key step ↔
      Declares history key step ∨
        step = history.length ∧ binds history key = false ∧ deed.leaves key false = true := by
  -- What the deed leaves is seen at its own step alone: earlier steps see a shorter history.
  rcases Nat.lt_trichotomy step history.length with earlier | rfl | later
  · have sofar : (history ++ [deed]).take step = history.take step :=
      List.take_append_of_le_length (Nat.le_of_lt earlier)
    have andThen : (history ++ [deed]).take (step + 1) = history.take (step + 1) :=
      List.take_append_of_le_length earlier
    constructor
    · rintro ⟨_, before, after⟩
      exact .inl ⟨earlier, sofar ▸ before, andThen ▸ after⟩
    · rintro (⟨_, before, after⟩ | ⟨rfl, _⟩)
      · exact ⟨by simp; omega, sofar ▸ before, andThen ▸ after⟩
      · exact absurd earlier (Nat.lt_irrefl _)
  · have sofar : (history ++ [deed]).take history.length = history := by simp
    have all : (history ++ [deed]).take (history.length + 1) = history ++ [deed] := by simp
    constructor
    · rintro ⟨_, before, after⟩
      rw [sofar] at before
      rw [all, binds_snoc, before] at after
      exact .inr ⟨rfl, before, after⟩
    · rintro (⟨present, _⟩ | ⟨_, before, after⟩)
      · exact absurd present (Nat.lt_irrefl _)
      · exact ⟨by simp, sofar.symm ▸ before, by rw [all, binds_snoc, before, after]⟩
  · constructor
    · rintro ⟨present, _⟩
      simp at present
      omega
    · rintro (⟨present, _⟩ | ⟨rfl, _⟩)
      · omega
      · exact absurd later (Nat.lt_irrefl _)

/-- A deed that does not declare the key leaves the time of its declaration. -/
theorem declaredAt_snoc (settled : binds history key = false → deed.leaves key false = false)
    {step : Nat} : DeclaredAt (history ++ [deed]) key step ↔ DeclaredAt history key step := by
  have same : ∀ step, Declares (history ++ [deed]) key step ↔ Declares history key step := by
    intro step
    rw [declares_snoc, or_iff_left]
    rintro ⟨_, unbound, declares⟩
    simp [settled unbound] at declares
  constructor
  · rintro ⟨declares, last⟩
    exact ⟨(same step).mp declares, fun later more => last later ((same later).mpr more)⟩
  · rintro ⟨declares, last⟩
    exact ⟨(same step).mpr declares, fun later more => last later ((same later).mp more)⟩

/-- A deed that declares the key is the time of its declaration. -/
theorem declaredAt_length (unbound : binds history key = false)
    (declares : deed.leaves key false = true) {step : Nat} :
    DeclaredAt (history ++ [deed]) key step ↔ step = history.length := by
  have now : Declares (history ++ [deed]) key history.length :=
    declares_snoc.mpr (.inr ⟨rfl, unbound, declares⟩)
  have bounded : ∀ step, Declares (history ++ [deed]) key step → step ≤ history.length := by
    rintro step ⟨present, _⟩
    simp at present
    omega
  constructor
  · rintro ⟨here, last⟩
    exact Nat.le_antisymm (bounded step here) (last _ now)
  · rintro rfl
    exact ⟨now, bounded⟩

/-- Keys whose declaration is settled stay in order, also when some are left out. -/
theorem InOrder.sublist {keys fewer : List String} (inOrder : InOrder history keys)
    (sublist : fewer.Sublist keys) (bound : ∀ key ∈ keys, binds history key = true) :
    InOrder (history ++ [deed]) fewer := by
  have settled : ∀ key ∈ keys, ∀ step,
      DeclaredAt (history ++ [deed]) key step ↔ DeclaredAt history key step :=
    fun key member step => declaredAt_snoc fun unbound => by simp [bound key member] at unbound
  constructor
  · intro key member
    obtain ⟨step, declared⟩ := inOrder.dated key (sublist.subset member)
    exact ⟨step, (settled key (sublist.subset member) step).mpr declared⟩
  · refine (inOrder.ordered.imp_of_mem ?_).sublist sublist
    intro earlier later here there ordered first second declared declaredLater
    exact ordered first second ((settled earlier here first).mp declared)
      ((settled later there second).mp declaredLater)

/-- A key that is declared now comes after all others. -/
theorem InOrder.concat {keys : List String} (inOrder : InOrder history keys)
    (bound : ∀ key ∈ keys, binds history key = true) (unbound : binds history key = false)
    (declares : deed.leaves key false = true) : InOrder (history ++ [deed]) (keys ++ [key]) := by
  obtain ⟨dated, ordered⟩ :=
    (inOrder.sublist (List.Sublist.refl keys) bound : InOrder (history ++ [deed]) keys)
  have now : ∀ step, DeclaredAt (history ++ [deed]) key step ↔ step = history.length :=
    fun step => declaredAt_length unbound declares
  constructor
  · intro other member
    rcases List.mem_append.mp member with old | new
    · exact dated other old
    · rw [List.mem_singleton.mp new]
      exact ⟨history.length, (now _).mpr rfl⟩
  · refine List.pairwise_append.mpr ⟨ordered, List.pairwise_singleton _ _, ?_⟩
    intro earlier here later new first second declared declaredLater
    rw [List.mem_singleton.mp new, now] at declaredLater
    have settled : binds history earlier = false → deed.leaves earlier false = false :=
      fun impossible => by simp [bound earlier here] at impossible
    rw [declaredLater]
    exact ((declaredAt_snoc settled).mp declared).declares.present

theorem Written.snoc {source value : Value} (written : Written history key source)
    (elsewhere : deed.concerns key = false) (renewed : deed.Renews source value) :
    Written (history ++ [deed]) key value := by
  obtain ⟨earlier, first, later, rfl, quiet, renews⟩ := written
  refine ⟨earlier, first, later ++ [deed], by simp, ?_, renews_snoc.mpr ⟨source, renews, renewed⟩⟩
  intro other member
  rcases List.mem_append.mp member with before | last
  · exact quiet other before
  · rw [List.mem_singleton.mp last]
    exact elsewhere

theorem written_bind (history : History) (key : String) (value : Value) :
    Written (history ++ [.bind key value]) key value :=
  ⟨history, value, [], rfl, by simp, rfl⟩

end Snoc

end History

/-! ## Keys and values -/

namespace Deed

variable {deed : Deed} {before after : Table Value} {listed : List String}

theorem Makes.keys_eq (makes : deed.Makes before after) : after.keys = deed.relist before.keys := by
  cases deed with
  | bind key value =>
      obtain rfl : after = before.insert key value := makes
      exact Table.keys_insert before key value
  | erase key =>
      obtain rfl : after = before.erase key := makes
      exact Table.keys_erase before key
  | copied old new => exact makes.1

theorem mem_relist (deed : Deed) (distinct : listed.Nodup) (key : String) :
    key ∈ deed.relist listed ↔ deed.leaves key (decide (key ∈ listed)) = true := by
  cases deed with
  | bind other value =>
      by_cases bound : other ∈ listed
      · simp only [relist, if_pos bound, leaves, Bool.or_eq_true, beq_iff_eq, decide_eq_true_eq]
        exact ⟨.inr, Or.rec (fun same => same ▸ bound) id⟩
      · simp only [relist, if_neg bound, leaves, Bool.or_eq_true, beq_iff_eq, decide_eq_true_eq,
          List.mem_append, List.mem_singleton]
        exact ⟨Or.rec .inr fun same => .inl same.symm, Or.rec (fun same => .inr same.symm) .inl⟩
  | erase other =>
      simp only [relist, leaves, Bool.and_eq_true, bne_iff_ne, decide_eq_true_eq,
        distinct.mem_erase_iff]
      exact and_congr_left fun _ => ne_comm
  | copied old new => simp [relist, leaves]

theorem nodup_relist (deed : Deed) (distinct : listed.Nodup) : (deed.relist listed).Nodup := by
  cases deed with
  | bind key value =>
      rw [relist]
      split
      · exact distinct
      · rename_i absent
        rw [← List.concat_eq_append]
        exact distinct.concat absent
  | erase key => exact distinct.erase key
  | copied old new => exact distinct

/-- Either a key is declared, which then comes last, or at most one is left out. -/
theorem relist_cases (deed : Deed) (listed : List String) :
    (∃ key, key ∉ listed ∧ deed.leaves key false = true ∧ deed.relist listed = listed ++ [key]) ∨
      (deed.relist listed).Sublist listed := by
  cases deed with
  | bind key value =>
      by_cases bound : key ∈ listed
      · rw [relist, if_pos bound]
        exact .inr (List.Sublist.refl listed)
      · exact .inl ⟨key, bound, by simp [leaves], if_neg bound⟩
  | erase key => exact .inr List.erase_sublist
  | copied old new => exact .inr (List.Sublist.refl listed)

end Deed

theorem Table.get?_of_copiedAll {old new : Store} {mode : CopyMode} {before after : Table Value}
    (keys : after.keys = before.keys)
    (copies : CopiedAll old new mode (before.entries.map Prod.snd) (after.entries.map Prod.snd))
    {key : String} {value : Value} (bound : after.get? key = some value) :
    ∃ source, before.get? key = some source ∧ Copied old new mode source value := by
  obtain ⟨before⟩ := before
  obtain ⟨after⟩ := after
  induction before generalizing after with
  | nil =>
      cases after with
      | nil => cases bound
      | cons entry rest => cases keys
  | cons entry rest inductionHypothesis =>
      cases after with
      | nil => cases keys
      | cons copy others =>
          obtain ⟨sameKey, sameKeys⟩ := List.cons.inj keys
          cases copies with
          | cons head tail =>
              obtain ⟨name, source⟩ := entry
              obtain ⟨copyName, copy⟩ := copy
              obtain rfl : copyName = name := sameKey
              simp only [Table.get?, List.find?_cons] at bound ⊢
              cases here : copyName == key with
              | true =>
                  simp only [here, Option.map_some, Option.some.injEq] at bound ⊢
                  exact ⟨source, rfl, bound ▸ head⟩
              | false =>
                  simp only [here] at bound ⊢
                  exact inductionHypothesis others bound sameKeys tail

namespace History

theorem told_empty : Told [] Table.empty where
  distinct := List.nodup_nil
  bound key := by simp [binds]
  inOrder := ⟨by simp, List.Pairwise.nil⟩
  listed := rfl
  written key value bound := by simp at bound

/-- One deed more makes the table that the longer history tells of. -/
theorem Told.snoc {history : History} {deed : Deed} {before after : Table Value}
    (told : Told history before) (makes : deed.Makes before after) :
    Told (history ++ [deed]) after where
  distinct := makes.keys_eq ▸ deed.nodup_relist told.distinct
  bound key := by
    have bound : decide (key ∈ before.keys) = history.binds key := by
      rw [Bool.eq_iff_iff, decide_eq_true_eq, told.bound key]
    rw [makes.keys_eq, deed.mem_relist told.distinct, bound, binds_snoc]
  inOrder := by
    have bound : ∀ key ∈ before.keys, binds history key = true :=
      fun key => (told.bound key).mp
    rw [makes.keys_eq]
    rcases deed.relist_cases before.keys with ⟨key, absent, declares, relisted⟩ | fewer
    · rw [told.bound, Bool.not_eq_true] at absent
      rw [relisted]
      exact told.inOrder.concat bound absent declares
    · exact told.inOrder.sublist fewer bound
  listed := by
    rw [makes.keys_eq, told.listed, List.foldl_append]
    rfl
  written key value bound := by
    cases deed with
    | bind written new =>
        obtain rfl : after = before.insert written new := makes
        by_cases same : key = written
        · subst same
          rw [Table.get?_insert_self, Option.some.injEq] at bound
          exact bound ▸ written_bind history key new
        · rw [Table.get?_insert_of_ne before written key new same] at bound
          exact (told.written key value bound).snoc (by simp [Deed.concerns, Ne.symm same]) rfl
    | erase erased =>
        obtain rfl : after = before.erase erased := makes
        by_cases same : key = erased
        · subst same
          rw [Table.get?_erase_self before key told.distinct] at bound
          cases bound
        · rw [Table.get?_erase_of_ne before erased key same] at bound
          exact (told.written key value bound).snoc (by simp [Deed.concerns, Ne.symm same]) rfl
    | copied old new =>
        obtain ⟨source, found, copied⟩ := Table.get?_of_copiedAll makes.1 makes.2 bound
        exact (told.written key source found).snoc rfl copied

/-- A table that comes about from the empty one is the one that its history tells of. -/
theorem told_of_makes {history : History} {table : Table Value}
    (makes : Makes history Table.empty table) : Told history table := by
  induction history using List.reverseRecOn generalizing table with
  | nil =>
      obtain rfl : table = Table.empty := makes
      exact told_empty
  | append_singleton history deed inductionHypothesis =>
      obtain ⟨before, sofar, last⟩ := makes_append.mp makes
      exact (inductionHypothesis sofar).snoc (makes_singleton.mp last)

end History

end ScopedValues
