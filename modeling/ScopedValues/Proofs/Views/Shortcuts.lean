import ScopedValues.Proofs.Views.Rendering

/-!
Contract: equality compared with itself in full.

Owns the comparison in which no list or map is equal to itself unseen, and what two values
share that are compared.

Main statement: values that are equal in full are equal; and in every session that can come about,
values without cycles that are equal are so in full unless they share a list or map that leads to
a NaN. Nothing else tells the two comparisons apart, as long as nothing in the values is being
changed in place.
-/

set_option autoImplicit false

namespace ScopedValues

open Store Likeness

/-! ## Equality in full -/

namespace Store

/-- Equality takes every list and map for equal to itself unseen. -/
theorem equal_eq_comparison (store : Store) (x y : Value) :
    store.equal x y = x.equalBy (store.comparison (· == ·)) y := by
  rw [← agree_eq_comparison]
  rfl

/-- The same comparison, but nothing is equal unseen: all lists and maps are looked into. -/
def equalInFull (store : Store) (x y : Value) : Except Fault Bool :=
  x.equalBy (store.comparison fun _ _ => false) y

/-- Whatever is equal in full is equal, with or without cycles. -/
theorem equal_of_equalInFull {store : Store} {x y : Value}
    (equal : store.equalInFull x y = .ok true) : store.equal x y = .ok true := by
  rw [equal_eq_comparison]
  refine Value.inStep_equalBy inStep_found (fun a b => ?_) x y equal
  exact compareWithin_of_unseen (fun _ _ impossible => by cases impossible) _ a b

end Store

/-- Equality, but no two handles to one payload are alike unseen. -/
def Likeness.inFull : Likeness :=
  { equality with unseen := False }

theorem Likeness.compared_inFull : inFull.Compared fun _ _ => false where
  scalars _ _ := Iff.rfl
  parents _ _ := Iff.rfl
  unseen _ _ := by simp [inFull]

namespace Value

variable {store : Store} {x y : Value}

theorem Ends.decides_equalInFull (sound : store.Sound) (ends : x.Ends store)
    (endsToo : y.Ends store) :
    Decides (store.equalInFull x y) (Alike inFull store x y) :=
  ends.decides_equalBy compared_inFull sound endsToo

/-! ## Likeness in full -/

theorem Alike.equality_of_inFull (alike : Alike inFull store x y) : Alike equality store x y := by
  induction alike with
  | scalar alike => exact .scalar alike
  | tuple length _ inductionHypothesis => exact .tuple length inductionHypothesis
  | list length _ inductionHypothesis => exact .list length inductionHypothesis
  | map parents keys _ inductionHypothesis => exact .map parents keys inductionHypothesis
  | oneList impossible => exact impossible.elim
  | oneMap impossible => exact impossible.elim

/-- What stands opposite one another in values that are alike in full is so as well. -/
theorem Alike.opposite {u v : Value} (alike : Alike inFull store x y)
    (opposite : Opposite store x y u v) : Alike inFull store u v := by
  induction opposite with
  | self => exact alike
  | element left right _ inductionHypothesis =>
      rcases alike with _ | ⟨_, each⟩
      exact inductionHypothesis (each _ _ _ left right)
  | item left right _ inductionHypothesis =>
      rcases alike with _ | _ | ⟨_, each⟩ | _ | impossible
      · exact inductionHypothesis (each _ _ _ left right)
      · exact impossible.elim
  | binding left right _ inductionHypothesis =>
      rcases alike with _ | _ | _ | ⟨_, _, each⟩ | _ | impossible
      · exact inductionHypothesis (each _ _ _ left right)
      · exact impossible.elim

theorem Ends.contained {inner : Value} (ends : x.Ends store) (inside : Contains store x inner) :
    inner.Ends store := by
  induction inside with
  | self => exact ends
  | element member _ inductionHypothesis =>
      cases ends with | tuple each => exact inductionHypothesis (each _ member)
  | item member _ inductionHypothesis =>
      cases ends with | list _ _ each => exact inductionHypothesis (each _ member)
  | binding member _ inductionHypothesis =>
      cases ends with | map _ _ each => exact inductionHypothesis (each _ member)

theorem Opposite.contains {u v : Value} (opposite : Opposite store x y u v) :
    Contains store x u := by
  induction opposite with
  | self x => exact .self x
  | element left _ _ inductionHypothesis =>
      exact .element (List.mem_of_getElem? left) inductionHypothesis
  | item left _ _ inductionHypothesis =>
      exact .item (List.mem_of_getElem? left) inductionHypothesis
  | binding left _ _ inductionHypothesis =>
      exact .binding (Table.mem_of_get? left) inductionHypothesis

/-- A value that ends is alike to itself in full exactly if it leads to no NaN. -/
theorem Ends.alike_inFull_self_iff (sound : store.Sound) (ends : x.Ends store) :
    Alike inFull store x x ↔ x.Throughout store (·.isNaN = false) := by
  induction ends with
  | scalar x =>
      constructor
      · rintro (alike | _) _ ⟨⟩
        exact (Scalar.equal_self_iff x).mp alike
      · exact fun clean => .scalar ((Scalar.equal_self_iff x).mpr clean.self)
  | tuple _ inductionHypothesis =>
      constructor
      · rintro (_ | ⟨_, each⟩) _ (_ | ⟨member, inside⟩)
        · rfl
        · obtain ⟨i, found⟩ := List.getElem?_of_mem member
          exact (inductionHypothesis _ member).mp (each i _ _ found found) _ inside
      · intro clean
        refine .tuple rfl fun i x y left right => ?_
        obtain rfl := Option.some.inj (left.symm.trans right)
        have member := List.mem_of_getElem? left
        exact (inductionHypothesis x member).mpr (clean.element x member)
  | list isList free _ inductionHypothesis =>
      constructor
      · rintro (_ | _ | ⟨_, each⟩ | _ | impossible) _ (_ | _ | ⟨member, inside⟩)
        · rfl
        · obtain ⟨i, found⟩ := List.getElem?_of_mem member
          exact (inductionHypothesis _ member).mp (each i _ _ found found) _ inside
        · rfl
        · exact impossible.elim
      · intro clean
        refine .list rfl fun i x y left right => ?_
        obtain rfl := Option.some.inj (left.symm.trans right)
        have member := List.mem_of_getElem? left
        exact (inductionHypothesis x member).mpr (clean.item x member)
  | @map a isScope free _ inductionHypothesis =>
      constructor
      · rintro (_ | _ | _ | ⟨_, _, each⟩ | _ | impossible) _ (_ | _ | _ | ⟨member, inside⟩)
        · rfl
        · have bound := Table.get?_of_mem (sound.keys a) member
          exact (inductionHypothesis _ member).mp (each _ _ _ bound bound) _ inside
        · rfl
        · exact impossible.elim
      · intro clean
        refine .map rfl (fun _ => Iff.rfl) fun key x y left right => ?_
        obtain rfl := Option.some.inj (left.symm.trans right)
        have member := Table.mem_of_get? left
        exact (inductionHypothesis (key, x) member).mpr (clean.binding (key, x) member)

/-! ## What two values share -/

/-- A list or map that stands opposite itself when two values are compared. -/
inductive Shares (store : Store) (x y : Value) : Value → Prop where
  | list {a : Addr} (opposite : Opposite store x y (.list a) (.list a)) : Shares store x y (.list a)
  | map {a : Addr} (opposite : Opposite store x y (.map a) (.map a)) : Shares store x y (.map a)

theorem Shares.opposite {shared : Value} (shares : Shares store x y shared) :
    Opposite store x y shared shared := by
  cases shares with
  | list opposite => exact opposite
  | map opposite => exact opposite

/-- What the parts of two values share, the two values share. -/
theorem Shares.within {u v shared : Value}
    (inside : ∀ {w}, Opposite store u v w w → Opposite store x y w w)
    (shares : Shares store u v shared) : Shares store x y shared := by
  cases shares with
  | list opposite => exact .list (inside opposite)
  | map opposite => exact .map (inside opposite)

/-- Equal values are equal in full if nothing that they share leads to a NaN. -/
theorem Alike.inFull_of_equality (sound : store.Sound) (alike : Alike equality store x y)
    (ends : x.Ends store)
    (clean : ∀ shared, Shares store x y shared → shared.Throughout store (·.isNaN = false)) :
    Alike inFull store x y := by
  induction alike with
  | scalar alike => exact .scalar alike
  | tuple length _ inductionHypothesis =>
      cases ends with | tuple each =>
      refine .tuple length fun i x y left right => ?_
      exact inductionHypothesis i x y left right (each x (List.mem_of_getElem? left))
        fun shared shares => clean shared (shares.within (.element left right))
  | list length _ inductionHypothesis =>
      cases ends with | list _ _ each =>
      refine .list length fun i x y left right => ?_
      exact inductionHypothesis i x y left right (each x (List.mem_of_getElem? left))
        fun shared shares => clean shared (shares.within (.item left right))
  | map parents keys _ inductionHypothesis =>
      cases ends with | map _ _ each =>
      refine .map parents keys fun key x y left right => ?_
      exact inductionHypothesis key x y left right (each (key, x) (Table.mem_of_get? left))
        fun shared shares => clean shared (shares.within (.binding left right))
  | oneList _ a => exact (ends.alike_inFull_self_iff sound).mpr (clean _ (.list (.self _ _)))
  | oneMap _ a => exact (ends.alike_inFull_self_iff sound).mpr (clean _ (.map (.self _ _)))

/-- Values are equal in full exactly if they are equal and share nothing that leads to a NaN. -/
theorem Ends.alike_inFull_iff (sound : store.Sound) (ends : x.Ends store) :
    Alike inFull store x y ↔ Alike equality store x y ∧
      ∀ shared, Shares store x y shared → shared.Throughout store (·.isNaN = false) := by
  constructor
  · refine fun alike => ⟨alike.equality_of_inFull, fun shared shares => ?_⟩
    have endsShared := ends.contained shares.opposite.contains
    exact (endsShared.alike_inFull_self_iff sound).mp (alike.opposite shares.opposite)
  · exact fun both => both.1.inFull_of_equality sound ends both.2

end Value

open Value

/-! ## The shortcut -/

/-- What the shortcut through shared lists and maps means for comparing the values of a kind. -/
structure Store.ShortcutAgrees (store : Store) (proper : Value → Prop) : Prop where
  /-- With and without it, comparing comes to an answer. -/
  answers : ∀ x y, proper x → proper y →
    ∃ short full, store.equal x y = .ok short ∧ store.equalInFull x y = .ok full
  /-- This holds whatever the two values are. -/
  ofFull : ∀ x y, store.equalInFull x y = .ok true → store.equal x y = .ok true
  inFull : ∀ x y, proper x → proper y → x.Throughout store (·.isNaN = false) →
    store.equal x y = .ok true → store.equalInFull x y = .ok true
  /-- The answers differ exactly if equal values share a list or map that leads to a NaN. -/
  differ_iff : ∀ x y, proper x → proper y →
    (store.equal x y ≠ store.equalInFull x y ↔ store.equal x y = .ok true ∧
      ∃ shared odd, Shares store x y shared ∧ Contains store shared odd ∧ odd.isNaN = true)

theorem Store.Sound.shortcutAgrees {store : Store} (sound : store.Sound) {proper : Value → Prop}
    (ends : ∀ x, proper x → x.Ends store) : store.ShortcutAgrees proper := by
  have short : ∀ x y, proper x → proper y →
      Decides (store.equal x y) (Alike equality store x y) :=
    fun x y left right => (ends x left).decides_equal sound (ends y right)
  have full : ∀ x y, proper x → proper y →
      Decides (store.equalInFull x y) (Alike inFull store x y) :=
    fun x y left right => (ends x left).decides_equalInFull sound (ends y right)
  refine {
    answers := ?_
    ofFull := fun _ _ => equal_of_equalInFull
    inFull := ?_
    differ_iff := ?_ }
  · intro x y left right
    obtain ⟨answer, ok, _⟩ := short x y left right
    obtain ⟨answerInFull, okInFull, _⟩ := full x y left right
    exact ⟨answer, answerInFull, ok, okInFull⟩
  · intro x y left right clean equal
    rw [(short x y left right).eq_ok_true_iff] at equal
    refine (full x y left right).eq_ok_true_iff.mpr
      (equal.inFull_of_equality sound (ends x left) fun shared shares inner inside => ?_)
    exact clean inner (shares.opposite.contains.trans inside)
  · intro x y left right
    have odd : (¬ ∀ shared, Shares store x y shared → shared.Throughout store (·.isNaN = false)) ↔
        ∃ shared odd, Shares store x y shared ∧ Contains store shared odd ∧ odd.isNaN = true := by
      simp [Throughout]
    rw [Ne, (short x y left right).eq_iff (full x y left right),
      (ends x left).alike_inFull_iff sound, (short x y left right).eq_ok_true_iff, ← odd]
    tauto

/-- In a session that can come about, the shortcut only saves work between values of which no
element or binding leads to a cycle or to anything that is lent out, as long as they share no list
or map that leads to a NaN; and outside all changes in place nothing is lent out. -/
theorem Session.Reached.shortcut_agrees {session : Session} {frames : List Frame}
    (reached : session.Reached frames) :
    (session.context.store.ShortcutAgrees fun value => value.Held session.context.store ∧
      value.Acyclic session.context.store ∧ value.Untouched session.context.store) ∧
      (frames = [] → ∀ value : Value, value.Untouched session.context.store) := by
  have sound := reached.stands.sound.context.store
  refine ⟨sound.shortcutAgrees fun _ ⟨held, acyclic, untouched⟩ =>
    acyclic.ends_of_untouched untouched sound.toTyped held, ?_⟩
  rintro rfl value
  exact untouched_of_idle reached.stands.lent value

/-- The two roots are equal with and without a look at everything in them, but the list with a
NaN in it is not equal to itself in full. -/
theorem Session.shortcut_agrees_mirrored :
    Session.mirrored.Reachable ∧
      Session.mirrored.context.store.equalInFull (.map 0) (.map 1) = .ok true ∧
      Session.mirrored.context.store.equal (.map 0) (.map 1) = .ok true ∧
      Session.mirrored.context.store.equal (.list 2) (.list 2) = .ok true ∧
      Session.mirrored.context.store.equalInFull (.list 2) (.list 2) ≠ .ok true := by
  obtain ⟨agrees, untouched⟩ := Session.Reached.shortcut_agrees Session.reachable_mirrored
  have proper (value : Value) (held : value.Held Session.mirrored.context.store) :
      value.Held Session.mirrored.context.store ∧ value.Acyclic Session.mirrored.context.store ∧
        value.Untouched Session.mirrored.context.store :=
    ⟨held, Session.acyclic_mirrored value, untouched rfl value⟩
  have left := proper (.map 0) ((Value.held_map _ _).mpr ⟨_, rfl⟩)
  have right := proper (.map 1) ((Value.held_map _ _).mpr ⟨_, rfl⟩)
  have odd := proper (.list 2) ((Value.held_list _ _).mpr ⟨_, rfl⟩)
  have full : Session.mirrored.context.store.equalInFull (.map 0) (.map 1) = .ok true := rfl
  have itself : Session.mirrored.context.store.equal (.list 2) (.list 2) = .ok true := rfl
  refine ⟨Session.reachable_mirrored, full, agrees.ofFull _ _ full, itself,
    fun impossible => ?_⟩
  have differ := (agrees.differ_iff _ _ odd odd).mpr
    ⟨itself, .list 2, .scalar (.num ⟨0x7ff8000000000000⟩), .list (.self _ _),
      .item (List.mem_singleton_self _) (.self _), rfl⟩
  exact differ (itself.trans impossible.symm)

end ScopedValues
