import ScopedValues.Proofs.Storage.Extension
import ScopedValues.Store.Copy

/-!
Contract: what a copy shares with its source.

Owns the two ways of copying, the relation between a value and its copy, and what
the relation says about tags, held values and further storage.

Main statements: a copy has the tag of its source, is held wherever its source is,
and is not affected by what is added to storage later.

Does not own the functions that make copies.
-/

set_option autoImplicit false

namespace ScopedValues

/-- What becomes of a list or map that a copy meets. -/
inductive CopyMode where
  /-- It stays shared. -/
  | plain
  /-- It gets storage of its own. -/
  | deep
deriving DecidableEq, Repr

mutual

/--
`copy`, with contents in `after`, is a copy of `value`, with contents in `before`. The
elements of a tuple are copied deeply in either mode. What fresh storage holds are
plain copies of what its source, which is not lent out, holds.
-/
inductive Copied (before after : Store) : CopyMode → Value → Value → Prop where
  | scalar (mode : CopyMode) (x : Scalar) :
      Copied before after mode (.scalar x) (.scalar x)
  | tuple {mode : CopyMode} {items copies : List Value}
      (elements : CopiedAll before after .deep items copies) :
      Copied before after mode (.tuple items) (.tuple copies)
  | sharedList (a : Addr) : Copied before after .plain (.list a) (.list a)
  | sharedMap (a : Addr) : Copied before after .plain (.map a) (.map a)
  | freshList {a b : Addr} {items copies : List Value}
      (free : a ∉ before.lent)
      (source : before.payloads[a]? = some (.list items))
      (made : after.payloads[b]? = some (.list copies))
      (fresh : before.size ≤ b)
      (elements : CopiedAll before after .plain items copies) :
      Copied before after .deep (.list a) (.list b)
  | freshMap {a b : Addr} {inner copy : Scope}
      (free : a ∉ before.lent)
      (source : before.payloads[a]? = some (.scope inner))
      (made : after.payloads[b]? = some (.scope copy))
      (fresh : before.size ≤ b)
      (parent : copy.parent = inner.parent)
      (keys : copy.bindings.keys = inner.bindings.keys)
      (elements : CopiedAll before after .plain
        (inner.bindings.entries.map Prod.snd) (copy.bindings.entries.map Prod.snd)) :
      Copied before after .deep (.map a) (.map b)

/-- The copies of several values, in order. -/
inductive CopiedAll (before after : Store) : CopyMode → List Value → List Value → Prop where
  | nil (mode : CopyMode) : CopiedAll before after mode [] []
  | cons {mode : CopyMode} {item copy : Value} {items copies : List Value}
      (head : Copied before after mode item copy)
      (rest : CopiedAll before after mode items copies) :
      CopiedAll before after mode (item :: items) (copy :: copies)

end

/-- A copy has the kind of its source. -/
theorem Copied.tag_eq {before after : Store} {mode : CopyMode} {value copy : Value}
    (copied : Copied before after mode value copy) : copy.tag = value.tag := by
  cases copied <;> rfl

mutual

/-- Storage that is added later is no part of a copy. -/
theorem Copied.extend {before middle after : Store} (extension : middle.Extends after) :
    ∀ {mode : CopyMode} {value copy : Value},
      Copied before middle mode value copy → Copied before after mode value copy
  | _, _, _, .scalar mode x => .scalar mode x
  | _, _, _, .tuple elements => .tuple (elements.extend extension)
  | _, _, _, .sharedList a => .sharedList a
  | _, _, _, .sharedMap a => .sharedMap a
  | _, _, _, .freshList free source made fresh elements =>
      .freshList free source (extension.payload made) fresh (elements.extend extension)
  | _, _, _, .freshMap free source made fresh parent keys elements =>
      .freshMap free source (extension.payload made) fresh parent keys
        (elements.extend extension)

theorem CopiedAll.extend {before middle after : Store} (extension : middle.Extends after) :
    ∀ {mode : CopyMode} {items copies : List Value},
      CopiedAll before middle mode items copies → CopiedAll before after mode items copies
  | _, _, _, .nil mode => .nil mode
  | _, _, _, .cons head rest => .cons (head.extend extension) (rest.extend extension)

end

mutual

/-- A copy is held by the storage it was made in. -/
theorem Copied.held {before after : Store} (extension : before.Extends after) :
    ∀ {mode : CopyMode} {value copy : Value},
      Copied before after mode value copy → value.Held before → copy.Held after
  | _, _, _, .scalar _ x, _ => Value.held_scalar after x
  | _, _, _, .tuple elements, held => by
      rw [Value.held_tuple] at held ⊢
      exact elements.held extension held
  | _, _, _, .sharedList _, held => held.grow extension.grows
  | _, _, _, .sharedMap _, held => held.grow extension.grows
  | _, _, _, .freshList _ _ made _ _, _ => (Value.held_list after _).mpr ⟨_, made⟩
  | _, _, _, .freshMap _ _ made _ _ _ _, _ => (Value.held_map after _).mpr ⟨_, made⟩

theorem CopiedAll.held {before after : Store} (extension : before.Extends after) :
    ∀ {mode : CopyMode} {items copies : List Value},
      CopiedAll before after mode items copies → (∀ item ∈ items, item.Held before) →
        ∀ copy ∈ copies, copy.Held after
  | _, _, _, .nil _, _ => by simp
  | _, _, _, .cons head rest, held => by
      rw [List.forall_mem_cons] at held ⊢
      exact ⟨head.held extension held.1, rest.held extension held.2⟩

end

/-! ## Rows of copies -/

section Rows

variable {before after : Store} {mode : CopyMode} {items more : List Value}

theorem CopiedAll.length_eq :
    ∀ {copies : List Value}, CopiedAll before after mode items copies →
      copies.length = items.length := by
  induction items with
  | nil =>
      rintro _ ⟨⟩
      rfl
  | cons item rest inductionHypothesis =>
      rintro _ (_ | ⟨_, tail⟩)
      exact congrArg Nat.succ (inductionHypothesis tail)

theorem CopiedAll.append :
    ∀ {copies others : List Value}, CopiedAll before after mode items copies →
      CopiedAll before after mode more others →
        CopiedAll before after mode (items ++ more) (copies ++ others) := by
  induction items with
  | nil =>
      rintro _ others ⟨⟩ second
      exact second
  | cons item rest inductionHypothesis =>
      rintro _ others (_ | ⟨head, tail⟩) second
      exact .cons head (inductionHypothesis tail second)

end Rows

end ScopedValues
