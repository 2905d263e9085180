import ScopedValues.Ascent
import ScopedValues.Proofs.Scopes.Resolution
import ScopedValues.Proofs.Sessions.Turns

/-!
Contract: the scopes of a session form a forest.

Owns the way from a scope outwards to another, walks with turns of the session between
their steps, and the shape of the parent links.

Main statement: in every session that can come about, parents are older than their
children and stay what they are; a walk outwards passes the chain of its scope, whatever
happens between its steps; and descent is a strict order in which the ancestors of one
scope are in line.

Addresses are given out in the order in which payloads come into being.
-/

set_option autoImplicit false

namespace ScopedValues

namespace Store

variable {store : Store} {a b c : Addr}

/-! ## Chains within chains -/

/-- Behind each of its scopes, a chain goes on as the chain of that scope. -/
theorem chain_of_split (sound : store.Sound) {nearer outer : List Addr}
    (split : store.chain a = nearer ++ b :: outer) : store.chain b = b :: outer := by
  induction nearer generalizing a with
  | nil =>
      have first := split
      rw [chain_eq_cons sound] at first
      obtain ⟨rfl, _⟩ := List.cons.inj first
      exact split
  | cons scope nearer inductionHypothesis =>
      rw [chain_eq_cons sound] at split
      obtain ⟨_, rest⟩ := List.cons.inj split
      cases enclosed : (store.scope a).parent with
      | none => simp [enclosed] at rest
      | some parent =>
          rw [enclosed] at rest
          exact inductionHypothesis rest

theorem chain_eq_cons_tail (sound : store.Sound) (a : Addr) :
    store.chain a = a :: (store.chain a).tail := by
  rw [chain_eq_cons sound]
  rfl

theorem length_chain_le (store : Store) (a : Addr) : (store.chain a).length ≤ a + 1 := by
  have within : ∀ fuel a, (store.chainWithin fuel a).length ≤ fuel := by
    intro fuel
    induction fuel with
    | zero => exact fun _ => Nat.le_refl 0
    | succ fuel inductionHypothesis =>
        intro a
        rw [chainWithin]
        cases (store.scope a).parent with
        | none => simp
        | some parent => simpa using inductionHypothesis parent
  exact within (a + 1) a

/-! ## Descent -/

/-- The chain of `a` leads to `b`, and no scope up to there is lent out. -/
def Rises (store : Store) (a b : Addr) : Prop :=
  ∃ between outer, store.chain a = a :: (between ++ b :: outer) ∧
    ∀ scope ∈ a :: (between ++ [b]), scope ∉ store.lent

theorem meets_eq_true_iff (ancestor : Addr) (scopes : List Addr) :
    store.meets ancestor scopes = .ok true ↔
      ∃ between outer, scopes = between ++ ancestor :: outer ∧
        ∀ scope ∈ between ++ [ancestor], scope ∉ store.lent := by
  induction scopes with
  | nil => simp [meets]
  | cons scope rest inductionHypothesis =>
      rw [meets]
      by_cases lent : scope ∈ store.lent
      · have conflict : store.free scope = .error .conflict := by simp [free, lent]
        rw [conflict]
        constructor
        · intro impossible
          cases impossible
        · rintro ⟨between, outer, split, clear⟩
          cases between <;> simp_all
      · rw [(free_eq_ok_iff store scope).mpr lent]
        change (if scope = ancestor then _ else _) = _ ↔ _
        by_cases here : scope = ancestor
        · subst here
          rw [if_pos rfl]
          exact ⟨fun _ => ⟨[], rest, rfl, by simpa using lent⟩, fun _ => rfl⟩
        · rw [if_neg here, inductionHypothesis]
          constructor
          · rintro ⟨between, outer, rfl, clear⟩
            exact ⟨scope :: between, outer, rfl, List.forall_mem_cons.mpr ⟨lent, clear⟩⟩
          · rintro ⟨between, outer, split, clear⟩
            cases between with
            | nil => exact absurd (List.cons.inj split).1 here
            | cons first between =>
                obtain ⟨rfl, rfl⟩ := List.cons.inj split
                exact ⟨between, outer, rfl, (List.forall_mem_cons.mp clear).2⟩

theorem descends_eq_true_iff (sound : store.Sound) (a b : Addr) :
    store.descends a b = .ok true ↔ store.Rises a b := by
  rw [descends, Rises, chain_eq_cons_tail sound a]
  simp only [List.tail_cons, List.cons.injEq, true_and, List.forall_mem_cons]
  by_cases lent : a ∈ store.lent
  · have conflict : store.free a = .error .conflict := by simp [free, lent]
    rw [conflict]
    constructor
    · intro impossible
      cases impossible
    · rintro ⟨_, _, _, clear, _⟩
      exact absurd lent clear
  · rw [(free_eq_ok_iff store a).mpr lent]
    change store.meets b _ = _ ↔ _
    rw [meets_eq_true_iff]
    simp [lent]

theorem descends_of_nothing_lent (idle : store.lent = []) (a b : Addr) :
    store.descends a b = .ok (decide (b ∈ (store.chain a).tail)) := by
  have meeting : ∀ scopes, store.meets b scopes = .ok (decide (b ∈ scopes)) := by
    intro scopes
    induction scopes with
    | nil => rfl
    | cons scope rest inductionHypothesis =>
        rw [meets, free_of_nothing_lent idle]
        change (if scope = b then _ else _) = _
        by_cases here : scope = b
        · simp [here]
        · simp [here, Ne.symm here, inductionHypothesis]
  rw [descends, free_of_nothing_lent idle]
  exact meeting _

/-- The owner of a key is the scope itself or one that it descends from. -/
theorem rises_of_owner (sound : store.Sound) {key : String} {owner : Addr}
    (found : store.owner? a key = .ok (some owner)) : owner = a ∨ store.Rises a owner := by
  have passed : ∀ scopes, store.firstBinding key scopes = .ok (some owner) →
      ∃ nearer outer, scopes = nearer ++ owner :: outer ∧
        ∀ scope ∈ nearer ++ [owner], scope ∉ store.lent := by
    intro scopes
    induction scopes with
    | nil =>
        intro impossible
        cases impossible
    | cons scope rest inductionHypothesis =>
        intro found
        rw [firstBinding, readScope_eq] at found
        by_cases lent : scope ∈ store.lent
        · rw [if_pos lent] at found
          cases found
        · rw [if_neg lent] at found
          change (if (store.scope scope).bindings.contains key = true then _ else _) = _ at found
          split at found
          · cases found
            exact ⟨[], rest, rfl, by simpa using lent⟩
          · obtain ⟨nearer, outer, rfl, clear⟩ := inductionHypothesis found
            exact ⟨scope :: nearer, outer, rfl, List.forall_mem_cons.mpr ⟨lent, clear⟩⟩
  obtain ⟨nearer, outer, split, clear⟩ := passed _ found
  rw [chain_eq_cons_tail sound] at split
  cases nearer with
  | nil => exact .inl (List.cons.inj split).1.symm
  | cons first nearer =>
      obtain ⟨rfl, rest⟩ := List.cons.inj split
      exact .inr ⟨nearer, outer, by rw [chain_eq_cons_tail sound, rest]; rfl, clear⟩

/-! ## Descent is a strict order -/

theorem Rises.lt (sound : store.Sound) (rises : store.Rises a b) : b < a := by
  obtain ⟨between, outer, split, _⟩ := rises
  have distinct := nodup_chain sound a
  have le : b ≤ a := le_of_mem_chain sound (by rw [split]; simp)
  rw [split, List.nodup_cons] at distinct
  have different : b ≠ a := by
    intro same
    exact distinct.1 (by simp [same])
  exact Nat.lt_of_le_of_ne le different

theorem Rises.trans (sound : store.Sound) (first : store.Rises a b) (second : store.Rises b c) :
    store.Rises a c := by
  obtain ⟨between, outer, split, clear⟩ := first
  obtain ⟨further, outermost, splitToo, clearToo⟩ := second
  have behind : store.chain b = b :: outer :=
    chain_of_split sound (show store.chain a = (a :: between) ++ b :: outer from split)
  rw [behind] at splitToo
  obtain ⟨_, rfl⟩ := List.cons.inj splitToo
  refine ⟨between ++ b :: further, outermost, by simp [split], ?_⟩
  intro scope member
  have onWay : scope ∈ a :: (between ++ [b]) ∨ scope ∈ b :: (further ++ [c]) := by
    simp only [List.mem_cons, List.mem_append, List.not_mem_nil, or_false] at member ⊢
    tauto
  rcases onWay with near | far
  · exact clear scope near
  · exact clearToo scope far

/-- Of two scopes that a scope descends from, the nearer one descends from the other. -/
theorem Rises.in_line (sound : store.Sound) (first : store.Rises a b) (second : store.Rises a c) :
    b = c ∨ store.Rises b c ∨ store.Rises c b := by
  have ordered : ∀ {b c : Addr} {nearer further outer outermost : List Addr},
      store.chain a = a :: (nearer ++ b :: outer) →
        nearer ++ b :: outer = nearer ++ b :: (further ++ c :: outermost) →
          (∀ scope ∈ a :: (nearer ++ b :: further ++ [c]), scope ∉ store.lent) →
            store.Rises b c := by
    intro b c nearer further outer outermost split same clear
    have behind := chain_of_split sound
      (show store.chain a = (a :: nearer) ++ b :: outer from split)
    have outerEq : outer = further ++ c :: outermost := by simpa using same
    refine ⟨further, outermost, by rw [behind, outerEq], fun scope member => ?_⟩
    apply clear
    simp only [List.mem_cons, List.mem_append, List.not_mem_nil, or_false] at member ⊢
    tauto
  obtain ⟨nearer, outer, split, clear⟩ := first
  obtain ⟨nearerToo, outerToo, splitToo, clearToo⟩ := second
  have same : nearer ++ b :: outer = nearerToo ++ c :: outerToo :=
    (List.cons.inj (split.symm.trans splitToo)).2
  rcases List.append_eq_append_iff.mp same with ⟨further, rfl, rest⟩ | ⟨further, rfl, rest⟩
  · cases further with
    | nil => exact .inl (List.cons.inj rest).1
    | cons scope further =>
        obtain ⟨rfl, rfl⟩ := List.cons.inj rest
        exact .inr (.inl (ordered split rfl (by simpa using clearToo)))
  · cases further with
    | nil => exact .inl (List.cons.inj rest).1.symm
    | cons scope further =>
        obtain ⟨rfl, rfl⟩ := List.cons.inj rest
        exact .inr (.inr (ordered splitToo rfl (by simpa using clear)))

end Store

/-! ## Walks with turns between their steps -/

open Store

/-- A walk outwards, with any number of turns of the session between two of its steps. -/
inductive Climbs (start : Moment) (a : Addr) : List Addr → Moment → Ascent → Prop where
  | outset : Climbs start a [] start (.outwards a)
  | turns {visited : List Addr} {now later : Moment} {ascent : Ascent}
      (climbs : Climbs start a visited now ascent) (run : Moment.Later now later) :
      Climbs start a visited later ascent
  | next {visited : List Addr} {now : Moment} {ascent : Ascent} {scope : Addr}
      (climbs : Climbs start a visited now ascent)
      (answer : (ascent.next now.store).1 = .ok (some scope)) :
      Climbs start a (visited ++ [scope]) now (ascent.next now.store).2

/-- What a walk does that has the scopes `ahead` still to come. -/
def answerAhead (store : Store) : List Addr → Except Fault (Option Addr)
  | [] => .ok none
  | scope :: _ => if scope ∈ store.lent then .error .conflict else .ok (some scope)

theorem Ascent.next_eq (store : Store) (ahead : List Addr) :
    (Ascent.next ⟨ahead.head?⟩ store).1 = answerAhead store ahead := by
  cases ahead with
  | nil => rfl
  | cons scope outer =>
      simp only [List.head?_cons, Ascent.next, answerAhead, Store.parent?, readScope_eq]
      by_cases lent : scope ∈ store.lent
      · rw [if_pos lent, if_pos lent]
        rfl
      · rw [if_neg lent, if_neg lent]
        rfl

theorem Ascent.next_of_ok {store : Store} {a scope : Addr}
    (answer : (Ascent.next ⟨some a⟩ store).1 = .ok (some scope)) :
    scope = a ∧ (Ascent.next ⟨some a⟩ store).2 = ⟨(store.scope a).parent⟩ := by
  simp only [Ascent.next, Store.parent?, readScope_eq] at answer ⊢
  by_cases lent : a ∈ store.lent
  · rw [if_pos lent] at answer
    cases answer
  · rw [if_neg lent] at answer ⊢
    cases answer
    exact ⟨rfl, rfl⟩

/--
What a walk has passed and what is still to come make up the chain that its scope had
at the outset: parents stay, so no turn diverts it.
-/
theorem Climbs.split {start now : Moment} {a : Addr} {visited : List Addr} {ascent : Ascent}
    (climbs : Climbs start a visited now ascent) (reached : start.Reached)
    (isScope : start.store.IsScope a) :
    Moment.Later start now ∧
      ∃ ahead, start.store.chain a = visited ++ ahead ∧ ascent = ⟨ahead.head?⟩ := by
  have sound := (Session.Reached.stands reached).sound.context.store
  induction climbs with
  | outset =>
      refine ⟨.refl, start.store.chain a, rfl, ?_⟩
      rw [chain_eq_cons_tail sound]
      rfl
  | turns _ run inductionHypothesis =>
      exact ⟨inductionHypothesis.1.trans run, inductionHypothesis.2⟩
  | @next visited now ascent scope _ answer inductionHypothesis =>
      obtain ⟨sofar, ahead, split, rfl⟩ := inductionHypothesis
      refine ⟨sofar, ?_⟩
      cases ahead with
      | nil => cases answer
      | cons first outer =>
          obtain ⟨rfl, moved⟩ := Ascent.next_of_ok answer
          refine ⟨outer, by simp [split], ?_⟩
          -- The parent that is read now is the one that the scope had at the outset.
          have passed : start.store.IsScope scope :=
            isScope_of_mem_chain sound isScope scope (by simp [split])
          have kept := (Moment.Runs.retains sofar reached).parents scope passed
          have behind := chain_of_split sound split
          rw [chain_eq_cons sound] at behind
          have outerEq := (List.cons.inj behind).2
          rw [List.head?_cons, moved, kept, ← outerEq]
          cases (start.store.scope scope).parent with
          | none => rfl
          | some parent =>
              change _ = Ascent.mk (start.store.chain parent).head?
              rw [chain_eq_cons_tail sound parent]
              rfl

/-! ## The forest -/

/-- The scopes of a moment, what becomes of them later, and how they are related. -/
structure Moment.Forest (moment : Moment) : Prop where
  keys : ∀ a, (moment.store.scope a).bindings.keys.Nodup
  older : ∀ a parent, (moment.store.scope a).parent = some parent →
    moment.store.IsScope parent ∧ parent < a
  created : ∀ later, Moment.Later moment later → ∀ a, later.store.IsScope a →
    moment.store.IsScope a ∨ moment.store.size ≤ a
  kept : ∀ later, Moment.Later moment later → ∀ a, moment.store.IsScope a →
    later.store.IsScope a ∧ (later.store.scope a).parent = (moment.store.scope a).parent
  links : ∀ a, moment.store.chain a = a ::
    match (moment.store.scope a).parent with
    | some parent => moment.store.chain parent
    | none => []
  finite : ∀ a, (moment.store.chain a).length ≤ a + 1
  distinct : ∀ a, (moment.store.chain a).Nodup
  /-- A walk passes the chain of its scope, whatever happens between its steps, and stops
  early only at a scope that is lent out. -/
  climbs : ∀ a, moment.store.IsScope a → ∀ visited now ascent,
    Climbs moment a visited now ascent → ∃ ahead, moment.store.chain a = visited ++ ahead ∧
      (ascent.next now.store).1 = answerAhead now.store ahead
  /-- While nothing is lent out, descent is decided by the chain. -/
  decided : moment.store.lent = [] → ∀ a b,
    moment.store.descends a b = .ok (decide (b ∈ (moment.store.chain a).tail))
  irreflexive : ∀ a, moment.store.descends a a ≠ .ok true
  transitive : ∀ a b c, moment.store.descends a b = .ok true →
    moment.store.descends b c = .ok true → moment.store.descends a c = .ok true
  asymmetric : ∀ a b, moment.store.descends a b = .ok true →
    moment.store.descends b a ≠ .ok true
  inLine : ∀ a b c, moment.store.descends a b = .ok true → moment.store.descends a c = .ok true →
    b = c ∨ moment.store.descends b c = .ok true ∨ moment.store.descends c b = .ok true
  owner : ∀ a key owner, moment.store.owner? a key = .ok (some owner) →
    owner = a ∨ moment.store.descends a owner = .ok true

theorem Store.Retains.isScope_or_size_le {before after : Store} (retains : before.Retains after)
    {a : Addr} (isScope : after.IsScope a) : before.IsScope a ∨ before.size ≤ a := by
  by_cases present : a < before.size
  · have stored : before.payloads[a]? = some before.payloads[a] := Array.getElem?_eq_getElem present
    cases payload : before.payloads[a] with
    | list items =>
        have isList := retains.lists a ⟨items, stored.trans (by rw [payload])⟩
        have both := isList.payload_eq.symm.trans isScope.payload_eq
        cases both
    | scope inner => exact .inl ⟨inner, stored.trans (by rw [payload])⟩
  · exact .inr (Nat.le_of_not_lt present)

/-- At every moment that can come about, the scopes form a forest, and go on forming it. -/
theorem Moment.Reached.forest {moment : Moment} (reached : moment.Reached) : moment.Forest := by
  have sound := (Session.Reached.stands reached).sound.context.store
  have rises : ∀ a b, moment.store.descends a b = .ok true ↔ moment.store.Rises a b :=
    descends_eq_true_iff sound
  exact {
    keys := sound.keys
    older := sound.parents
    created := fun later run a isScope => (Runs.retains run reached).isScope_or_size_le isScope
    kept := fun later run a isScope =>
      ⟨(Runs.retains run reached).scopes a isScope, (Runs.retains run reached).parents a isScope⟩
    links := chain_eq_cons sound
    finite := length_chain_le moment.store
    distinct := nodup_chain sound
    climbs := by
      intro a isScope visited now ascent climbs
      obtain ⟨_, ahead, split, rfl⟩ := climbs.split reached isScope
      exact ⟨ahead, split, Ascent.next_eq now.store ahead⟩
    decided := descends_of_nothing_lent
    irreflexive := fun a itself => Nat.lt_irrefl a (((rises a a).mp itself).lt sound)
    transitive := fun a b c first second =>
      (rises a c).mpr (((rises a b).mp first).trans sound ((rises b c).mp second))
    asymmetric := fun a b down up =>
      Nat.lt_asymm (((rises a b).mp down).lt sound) (((rises b a).mp up).lt sound)
    inLine := by
      intro a b c first second
      rw [rises b c, rises c b]
      exact ((rises a b).mp first).in_line sound ((rises a c).mp second)
    owner := fun a key owner found => by
      rw [rises a owner]
      exact rises_of_owner sound found }

/-- Two scopes, one inside the other, each bound in the other. -/
def Session.knotted : Session :=
  (Session.start false).run [
    .scope .root { name := some "outer" },
    .scope (.child "outer") { name := some "inner" },
    .act "inner" [] (.onMap (.insert "up" (.copy "outer"))) { quiet := true },
    .act "outer" [] (.onMap (.insert "down" (.copy "inner"))) { quiet := true }]

theorem Moment.forest_knotted :
    (Moment.mk Session.knotted []).Reached ∧ (Moment.mk Session.knotted []).Forest ∧
      (Session.knotted.context.store.scope 0).bindings.get? "down" = some (.map 1) ∧
      (Session.knotted.context.store.scope 1).bindings.get? "up" = some (.map 0) ∧
      Session.knotted.context.store.descends 1 0 = .ok true := by
  have reached : (Moment.mk Session.knotted []).Reached := (Session.Reached.start false).run _
  exact ⟨reached, reached.forest, rfl, rfl, rfl⟩

end ScopedValues
