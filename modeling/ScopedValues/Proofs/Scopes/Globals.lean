import ScopedValues.Proofs.Scopes.Chronicle
import ScopedValues.Proofs.Scopes.Requests

/-!
Contract: what one top-level scope can do to another.

Owns the runs that are made through one scope alone, and the keys that they write further out.

Main statement: default scopes are made once and shared by all that ask for them; and a run
through one top-level scope changes what a key means to another only if it writes that key at a
moment when a scope that they share binds it and the first does not.
-/

set_option autoImplicit false

namespace ScopedValues

open Store

/-! ## Leaks -/

/-- The key, if the scope at `one` leaves it to one of the scopes around it, where a write through
the chain then goes. -/
def Store.leaks (store : Store) (one : Addr) (around : List Addr) (key : String) : List String :=
  if !store.binds key one && around.any (store.binds key) then [key] else []

/-- The write goes through the scope at `one`, unless it is a write of a list. -/
def Write.Through (one : Addr) : Write → Prop
  | .insert a _ _ => a = one
  | .erase a _ => a = one
  | .assign a _ _ => a = one
  | _ => True

def Write.leaks (store : Store) (one : Addr) (around : List Addr) : Write → List String
  | .assign _ key _ => store.leaks one around key
  | _ => []

namespace Scene

/-- One move of a run that is made through the followed scope alone, and what leaks in it. -/
inductive Use (around : List Addr) : Scene → List String → Scene → Prop where
  /-- Anything is added to storage. -/
  | grow {one : Addr} {context later : Context} {frames : List Frame}
      (adds : context.store.Extends later.store) (sound : later.store.Sound) :
      Use around ⟨one, context, frames⟩ [] ⟨one, later, frames⟩
  | write {one : Addr} {context : Context} {frames : List Frame} (write : Write)
      (fits : write.Fits context.store) (through : write.Through one) :
      Use around ⟨one, context, frames⟩ (write.leaks context.store one around)
        ⟨one, (write.run context).2, frames⟩
  | enterItem {one : Addr} {context : Context} {frames : List Frame} {a : Addr} {index : Index}
      {position : Nat} {value : Value} (isList : context.store.IsList a)
      (found : context.store.item a index = .ok (position, value)) (slot : String) :
      Use around ⟨one, context, frames⟩ []
        ⟨one, { context with store := context.store.lend a }, .item a position slot :: frames⟩
  | enterEntry {one : Addr} {context : Context} {frames : List Frame} {owner : Addr}
      {key : String} {value : Value} {store : Store}
      (found : context.store.entry one key = .ok (owner, value, store)) (slot : String) :
      Use around ⟨one, context, frames⟩ (context.store.leaks one around key)
        ⟨one, { context with store := store.lend owner }, .entry owner key slot :: frames⟩
  | leave {one : Addr} {context : Context} {frame : Frame} {frames : List Frame} {value : Value}
      (held : value.Held context.store) :
      Use around ⟨one, context, frame :: frames⟩ []
        ⟨one, { context with store := frame.putBack context.store.regain value }, frames⟩

/-- A run that is made through the followed scope alone, and all that leaks in it. -/
inductive Uses (around : List Addr) : Scene → List String → Scene → Prop where
  | done (scene : Scene) : Uses around scene [] scene
  | move {before middle last : Scene} {here further : List String}
      (use : Use around before here middle) (rest : Uses around middle further last) :
      Uses around before (here ++ further) last

end Scene

/-! ## What leaks -/

section Leaks

variable {store : Store} {one : Addr} {around : List Addr} {key : String}

/-- A write through a chain goes to the scope itself or leaks to one of those around it. -/
theorem Store.writer_cases (chain : store.chain one = one :: around) (key : String) :
    store.writer one key = one ∨
      store.writer one key ∈ around ∧ key ∈ store.leaks one around key := by
  have nearest : store.nearest? one key = (one :: around).find? (store.binds key) := by
    rw [nearest?, chain]
  cases here : store.binds key one with
  | true =>
      rw [List.find?_cons_of_pos here] at nearest
      exact .inl (by rw [writer, nearest, Option.getD_some])
  | false =>
      rw [List.find?_cons_of_neg (by simp [here])] at nearest
      cases found : around.find? (store.binds key) with
      | none => exact .inl (by rw [writer, nearest, found, Option.getD_none])
      | some owner =>
          have isBound : around.any (store.binds key) = true :=
            List.any_eq_true.mpr ⟨owner, List.mem_of_find?_eq_some found, List.find?_some found⟩
          refine .inr ⟨?_, by simp [leaks, here, isBound]⟩
          rw [writer, nearest, found, Option.getD_some]
          exact List.mem_of_find?_eq_some found

end Leaks

/-- The deeds do nothing but bind keys that leak, if they reach the scope at all. -/
def History.Leaked (around : List Addr) (leaks : List String) (a : Addr) (deeds : History) : Prop :=
  ∀ deed ∈ deeds, a ∈ around ∧ ∃ key ∈ leaks, ∃ value, deed = .bind key value

namespace History

variable {around : List Addr} {leaks : List String} {a : Addr} {deeds : History}
  {before after : Table Value}

theorem leaked_nil : Leaked around leaks a [] := by
  simp [Leaked]

theorem leaked_reaching {owner : Addr} {key : String} {value : Value}
    (outside : owner = a → a ∈ around ∧ key ∈ leaks) :
    Leaked around leaks a (reaching a owner (.bind key value)) := by
  unfold reaching
  split
  · rename_i same
    obtain ⟨member, leaked⟩ := outside same
    simp only [Leaked, List.mem_singleton, forall_eq]
    exact ⟨member, key, leaked, value, rfl⟩
  · exact leaked_nil

/-- What leaks changes no other key. -/
theorem Leaked.get?_eq (leaked : Leaked around leaks a deeds) (made : Makes deeds before after)
    {key : String} (other : key ∉ leaks) : after.get? key = before.get? key := by
  induction deeds generalizing before with
  | nil => exact congrArg (Table.get? · key) made
  | cons deed rest inductionHypothesis =>
      obtain ⟨middle, first, made⟩ := made
      obtain ⟨_, bound, leaks, value, rfl⟩ := leaked deed List.mem_cons_self
      have later := inductionHypothesis (fun deed member => leaked deed (.tail _ member)) made
      have different : key ≠ bound := fun same => other (same ▸ leaks)
      obtain rfl : middle = before.insert bound value := first
      rw [later, Table.get?_insert_of_ne before bound key value different]

/-- Where nothing can leak to, nothing changes. -/
theorem Leaked.eq_nil (leaked : Leaked around leaks a deeds) (dry : a ∈ around → leaks = []) :
    deeds = [] := by
  refine List.eq_nil_iff_forall_not_mem.mpr fun deed member => ?_
  obtain ⟨around, key, leaks, _⟩ := leaked deed member
  rw [dry around] at leaks
  cases leaks

end History

/-- The storage that a change under way holds is the scope itself, or its key has leaked. -/
def Frame.Bounded (one : Addr) (around : List Addr) (leaks : List String) : Frame → Prop
  | .item _ _ _ => True
  | .entry owner key _ => owner = one ∨ owner ∈ around ∧ key ∈ leaks

/-- A write through one scope does to another nothing but what leaks. -/
theorem Write.leaked_deeds {context : Context} {one a : Addr} {around : List Addr}
    {leaks : List String} {write : Write} (through : write.Through one)
    (chain : context.store.chain one = one :: around)
    (within : write.leaks context.store one around ⊆ leaks) (different : one ≠ a) :
    History.Leaked around leaks a (write.deeds context a) := by
  have elsewhere : ∀ {deed : Deed}, History.Leaked around leaks a (.reaching a one deed) := by
    intro deed
    rw [History.reaching, if_neg different]
    exact History.leaked_nil
  unfold deeds
  split
  · rename_i target deed _ reaches
    cases write with
    | insert b key value =>
        obtain rfl : b = one := through
        cases reaches
        exact elsewhere
    | erase b key =>
        obtain rfl : b = one := through
        cases reaches
        exact elsewhere
    | assign b key value =>
        obtain rfl : b = one := through
        cases reaches
        refine History.leaked_reaching fun here => ?_
        rcases writer_cases chain key with itself | ⟨member, leaked⟩
        · exact absurd (itself.symm.trans here) different
        · exact ⟨here ▸ member, within leaked⟩
    | _ => cases reaches
  · exact History.leaked_nil

namespace Scene

variable {around : List Addr} {here leaks : List String} {before after last : Scene}

/-- Seen from another scope, nothing is done in the use of one but what leaks. -/
theorem Use.seen (use : Use around before here after) (stands : before.Stands)
    (chain : before.store.chain before.scope = before.scope :: around) (within : here ⊆ leaks)
    (bounded : ∀ frame ∈ before.frames, frame.Bounded before.scope around leaks) (a : Addr) :
    ∃ deeds, Move { before with scope := a } deeds { after with scope := a } ∧
      (before.scope ≠ a → History.Leaked around leaks a deeds) := by
  cases use with
  | grow adds sound => exact ⟨[], .grow adds sound, fun _ => History.leaked_nil⟩
  | write write fits through =>
      exact ⟨_, .write write fits, Write.leaked_deeds through chain within⟩
  | enterItem isList found slot =>
      exact ⟨[], .enterItem isList found slot, fun _ => History.leaked_nil⟩
  | @enterEntry one context frames owner key value store found slot =>
      refine ⟨_, .enterEntry stands.isScope found slot, fun different => ?_⟩
      obtain ⟨same, _⟩ := written_of_entry stands.sound found
      unfold Store.declaration
      split
      · exact History.leaked_nil
      · refine History.leaked_reaching fun here => ?_
        rcases writer_cases chain key with itself | ⟨member, leaked⟩
        · exact absurd ((same.trans itself).symm.trans here) different
        · exact ⟨here ▸ same ▸ member, within leaked⟩
  | @leave one context frame frames value held =>
      refine ⟨_, .leave held, fun different => ?_⟩
      have bound := bounded frame List.mem_cons_self
      cases frame with
      | item b position slot => exact History.leaked_nil
      | entry owner key slot =>
          refine History.leaked_reaching fun here => ?_
          rcases bound with itself | ⟨member, leaked⟩
          · exact absurd (itself.symm.trans here) different
          · exact ⟨here ▸ member, leaked⟩

/-- What a run through one scope keeps to while it goes on. -/
structure Keeping (around : List Addr) (leaks : List String) (scene : Scene) : Prop where
  stands : scene.Stands
  chain : scene.store.chain scene.scope = scene.scope :: around
  bounded : ∀ frame ∈ scene.frames, frame.Bounded scene.scope around leaks

theorem Use.scope_eq (use : Use around before here after) : after.scope = before.scope := by
  cases use <;> rfl

theorem Use.keeping (use : Use around before here after) (keeping : before.Keeping around leaks)
    (within : here ⊆ leaks) :
    after.Keeping around leaks ∧ before.store.Retains after.store := by
  obtain ⟨stands, chain, bounded⟩ := keeping
  obtain ⟨deeds, move, _⟩ := use.seen stands chain within bounded before.scope
  have move : Move before deeds after := by
    obtain ⟨scope, context, frames⟩ := after
    obtain rfl : scope = before.scope := use.scope_eq
    exact move
  have standsAfter := (move.makes stands).1
  have retains := move.retains stands
  refine ⟨⟨standsAfter, ?_, ?_⟩, retains⟩
  · rw [use.scope_eq, retains.chain_eq stands.sound standsAfter.sound stands.isScope, chain]
  · rw [use.scope_eq]
    cases use with
    | grow adds sound => exact bounded
    | write write fits through => exact bounded
    | enterItem isList found slot => exact List.forall_mem_cons.mpr ⟨trivial, bounded⟩
    | enterEntry found slot =>
        refine List.forall_mem_cons.mpr ⟨?_, bounded⟩
        obtain ⟨rfl, _⟩ := written_of_entry stands.sound found
        exact (writer_cases chain _).imp id fun leaked => ⟨leaked.1, within leaked.2⟩
    | leave held => exact fun frame member => bounded frame (List.mem_cons_of_mem _ member)

/-- What a run through the scope at `one` leaves of all other scopes. -/
structure Confined (one : Addr) (around : List Addr) (leaks : List String)
    (before after : Store) : Prop where
  retains : before.Retains after
  others : ∀ a, before.IsScope a → one ≠ a → ∀ key, key ∉ leaks →
    (after.scope a).bindings.get? key = (before.scope a).bindings.get? key
  same : ∀ a, before.IsScope a → one ≠ a → (a ∈ around → leaks = []) →
    after.scope a = before.scope a

theorem Use.confined (use : Use around before here after) (keeping : before.Keeping around leaks)
    (within : here ⊆ leaks) :
    Confined before.scope around leaks before.store after.store := by
  have retains := (use.keeping keeping within).2
  obtain ⟨stands, chain, bounded⟩ := keeping
  have seen : ∀ a, before.store.IsScope a → before.scope ≠ a → ∃ deeds,
      History.Makes deeds (before.store.scope a).bindings (after.store.scope a).bindings ∧
        History.Leaked around leaks a deeds := by
    intro a isScope different
    obtain ⟨deeds, move, leaked⟩ := use.seen stands chain within bounded a
    exact ⟨deeds, (move.makes ⟨stands.sound, isScope, stands.fits⟩).2, leaked different⟩
  refine ⟨retains, fun a isScope different key other => ?_, fun a isScope different dry => ?_⟩
  · obtain ⟨deeds, made, leaked⟩ := seen a isScope different
    exact leaked.get?_eq made other
  · obtain ⟨deeds, made, leaked⟩ := seen a isScope different
    obtain rfl := leaked.eq_nil dry
    exact congrArg₂ Scope.mk made (retains.parents a isScope)

theorem Confined.trans {one : Addr} {before middle after : Store}
    (first : Confined one around leaks before middle)
    (second : Confined one around leaks middle after) :
    Confined one around leaks before after where
  retains := first.retains.trans second.retains
  others a isScope different key other :=
    (second.others a (first.retains.scopes a isScope) different key other).trans
      (first.others a isScope different key other)
  same a isScope different dry :=
    (second.same a (first.retains.scopes a isScope) different dry).trans
      (first.same a isScope different dry)

/-- A run through one scope changes others at most under the keys that leak. -/
theorem Uses.confined {all : List String} (uses : Uses around before all last)
    (keeping : before.Keeping around leaks) (within : all ⊆ leaks) :
    last.Keeping around leaks ∧
      Confined before.scope around leaks before.store last.store := by
  induction uses with
  | done scene => exact ⟨keeping, .refl _, fun _ _ _ _ _ => rfl, fun _ _ _ _ => rfl⟩
  | move use _ inductionHypothesis =>
      obtain ⟨here, further⟩ := List.append_subset.mp within
      have first := use.confined keeping here
      obtain ⟨lastKeeping, rest⟩ := inductionHypothesis (use.keeping keeping here).1 further
      exact ⟨lastKeeping, first.trans (use.scope_eq ▸ rest)⟩

/-! ### Changes in place as a whole -/

theorem Uses.append {first second : List String} {middle : Scene}
    (earlier : Uses around before first middle) (later : Uses around middle second last) :
    Uses around before (first ++ second) last := by
  induction earlier with
  | done scene => exact later
  | move use _ inductionHypothesis =>
      rw [List.append_assoc]
      exact .move use (inductionHypothesis later)

theorem Use.uses (use : Use around before here after) : Uses around before here after := by
  rw [← List.append_nil here]
  exact .move use (.done after)

/-- A change in place of a binding is entering it, what its work does, and leaving it. -/
theorem Uses.withEntry {ρ : Type} {context inner : Context} {frames : List Frame}
    {one owner : Addr} {key : String} {value changed : Value} {store : Store}
    (found : context.store.entry one key = .ok (owner, value, store)) (slot : String)
    {work : Context.InPlace ρ}
    (worked : (work value { context with store := store.lend owner }).2 = (changed, inner))
    {within : List String}
    (uses : Uses around
      ⟨one, { context with store := store.lend owner }, .entry owner key slot :: frames⟩ within
      ⟨one, inner, .entry owner key slot :: frames⟩) (held : changed.Held inner.store) :
    Uses around ⟨one, context, frames⟩ (context.store.leaks one around key ++ within)
      ⟨one, (Context.withEntry one key work context).2, frames⟩ := by
  rw [Context.snd_withEntry found, Context.snd_lending _ worked,
    ← List.append_nil (context.store.leaks one around key ++ within)]
  exact ((Use.enterEntry found slot).uses.append uses).append (Use.leave held).uses

end Scene

/-! ## Top-level scopes -/

/-- What becomes of the scope at `other`, and of those at `own` and `root` that it shares, in a
run in which these keys leak. -/
structure Apart (other own root : Addr) (leaks : List String) (before after : Store) : Prop where
  meaning : ∀ key, after.resolve? other key ≠ before.resolve? other key → key ∈ leaks
  itself : after.scope other = before.scope other
  dry : leaks = [] → after.scope own = before.scope own ∧ after.scope root = before.scope root

section TopLevel

variable {context : Context} {one other own root : Addr} {leaks : List String} {last : Scene}

theorem Store.chain_of_inside {store : Store} (sound : store.Sound) (inside : store.Inside one own)
    (ownInside : store.Inside own root) (isRoot : (store.scope root).parent = none) :
    store.chain one = [one, own, root] := by
  simp only [chain_eq_cons sound one, inside.2, chain_eq_cons sound own, ownInside.2,
    chain_eq_cons sound root, isRoot]

/-- Two scopes inside the same one share nothing else, and what is done through the first alone
is seen from the second only if it leaks. -/
theorem Scene.Uses.apart (uses : Uses [own, root] ⟨one, context, []⟩ leaks last)
    (sound : context.store.Sound) (inside : context.store.Inside one own)
    (otherInside : context.store.Inside other own) (ownInside : context.store.Inside own root)
    (isScope : context.store.IsScope root) (isRoot : (context.store.scope root).parent = none)
    (different : one ≠ other) : Apart other own root leaks context.store last.store := by
  have chain := chain_of_inside sound inside ownInside isRoot
  have otherChain := chain_of_inside sound otherInside ownInside isRoot
  have younger : own < one := (sound.parents one own inside.2).2
  have youngest : root < own := (sound.parents own root ownInside.2).2
  obtain ⟨keeping, confined⟩ :=
    uses.confined ⟨⟨sound, inside.1, by simp⟩, chain, by simp⟩ (List.Subset.refl _)
  have ownApart : one ≠ own := (Nat.ne_of_lt younger).symm
  have rootApart : one ≠ root := (Nat.ne_of_lt (Nat.lt_trans youngest younger)).symm
  refine ⟨fun key changed => ?_, ?_, fun dry => ⟨?_, ?_⟩⟩
  · by_contra unleaked
    have others := fun a isScope different => confined.others a isScope different key unleaked
    refine changed ?_
    rw [resolve?, resolve?,
      confined.retains.chain_eq sound keeping.stands.sound otherInside.1, otherChain]
    refine resolveAlong_congr ?_
    simp only [List.forall_mem_cons, List.not_mem_nil, false_implies, implies_true, and_true]
    exact ⟨others other otherInside.1 different, others own ownInside.1 ownApart,
      others root isScope rootApart⟩
  · have olderOwn : own < other := (sound.parents other own otherInside.2).2
    refine confined.same other otherInside.1 different fun shared => ?_
    rcases List.mem_pair.mp shared with rfl | rfl
    · exact absurd olderOwn (Nat.lt_irrefl _)
    · exact absurd (Nat.lt_trans youngest olderOwn) (Nat.lt_irrefl _)
  · exact confined.same own ownInside.1 ownApart fun _ => dry
  · exact confined.same root isScope rootApart fun _ => dry

end TopLevel

/-- What holds of the default scopes, and of the scopes inside them, after a run in which these
requests were made and these events recorded. -/
structure SharesDefaults (tracing : Bool) (context : Context) (askings : List Asking)
    (events : List Event) : Prop where
  root : ∀ root, context.base = some root →
    context.store.IsScope root ∧ (context.store.scope root).parent = none
  own : ∀ own, context.defaultGlobal = some own →
    ∃ root, context.base = some root ∧ context.store.Inside own root
  answered : ∀ asking ∈ askings, asking.Answered context
  /-- No scope is made twice. -/
  distinct : (askings.filterMap Asking.made?).Nodup
  /-- On the record, each default scope is told of if it has been made, and once. -/
  told : ∀ event, event.tellsOfDefault = true →
    events.count event = if tracing then context.made event else 0
  once : ∀ event, event.tellsOfDefault = true → events.count event ≤ 1
  /-- What is done through one top-level scope reaches another only by leaking. -/
  apart : ∀ own root one other, context.defaultGlobal = some own → context.base = some root →
    context.store.Inside one own → context.store.Inside other own → one ≠ other →
      ∀ leaks last, Scene.Uses [own, root] ⟨one, context, []⟩ leaks last →
        Apart other own root leaks context.store last.store

/-- Default scopes are made once, and top-level scopes inside them are apart. -/
theorem Asked.shares_defaults {tracing : Bool} {moment : Moment} {askings : List Asking}
    {events : List Event} (asked : Asked tracing moment askings events) :
    SharesDefaults tracing moment.session.context askings events := by
  have sound := (Session.Reached.stands asked.reached).sound.context
  have own : ∀ own, moment.session.context.defaultGlobal = some own →
      ∃ root, moment.session.context.base = some root ∧ moment.store.Inside own root := by
    intro own made
    obtain ⟨isScope, root, base, inside⟩ := sound.defaultGlobal own made
    exact ⟨root, base, isScope, inside⟩
  have told : ∀ event, event.tellsOfDefault = true →
      events.count event = if tracing then moment.session.context.made event else 0 := by
    intro event tells
    cases tracing with
    | false => rw [asked.accounts.silent rfl, List.count_nil, if_neg Bool.false_ne_true]
    | true =>
        have unmade : (Session.start true).context.made event = 0 := by cases event <;> rfl
        rw [if_pos rfl, ← asked.accounts.told rfl event tells, unmade, Nat.zero_add]
  refine ⟨sound.base, own, asked.answered, asked.nodup_made.1, told, fun event tells => ?_, ?_⟩
  · rw [told event tells]
    split
    · exact Context.made_le_one _ event
    · exact Nat.zero_le 1
  · intro first root one other made base inside otherInside different leaks last uses
    obtain ⟨_, sameBase, ownInside⟩ := own first made
    cases base.symm.trans sameBase
    obtain ⟨isScope, isRoot⟩ := sound.base root base
    exact uses.apart sound.store inside otherInside ownInside isScope isRoot different

namespace Session

/-- The default scope binds `pi`, and inside it two top-level scopes are made. -/
def twoGlobals : Session :=
  (start true).run [
    .scope .defaultGlobal { name := some "own", quiet := true },
    .act "own" [] (.onMap (.insert "pi" (.scalar (.str "three")))) {},
    .scope .global { quiet := true },
    .scope .global { quiet := true }]

theorem asked_twoGlobals : ∃ askings events, Asked true ⟨twoGlobals, []⟩ askings events ∧
    askings.map Asking.answer = [.ok 2, .ok 3] ∧
      events = [.defaultGlobalCreated, .baseCreated, .childEntered 2, .childEntered 2] := by
  have bound : Asked true _ _ _ := .turn (.turn .start
    (@Moment.Turn.step _ _ [] (.scope .defaultGlobal { name := some "own", quiet := true })
      trivial))
      (@Moment.Turn.step _ _ [] (.act "own" [] (.onMap (.insert "pi" (.scalar (.str "three")))) {})
        trivial)
  exact ⟨_, _, (bound.request .global).request .global, rfl, rfl⟩

/-- A run through the first of two top-level scopes that declares `pi` there before it assigns it
leaves the second alone. -/
theorem uses_declaring : ∃ last, Scene.Uses [1, 0] ⟨2, twoGlobals.context, []⟩ [] last ∧
    last.store.resolve? 2 "pi" = some (2, Value.str "four") := by
  have held : ∀ (text : String) (store : Store), (Value.str text).Held store :=
    fun text store => Value.held_scalar store (.str text)
  have declared : Scene.Use [1, 0] ⟨2, twoGlobals.context, []⟩ _ _ :=
    .write (.insert 2 "pi" (Value.str "three")) ⟨⟨_, rfl⟩, held _ _⟩ rfl
  exact ⟨_, .move declared <|
    .move (.write (.assign 2 "pi" (Value.str "four")) ⟨⟨_, rfl⟩, held _ _⟩ rfl) (.done _), rfl⟩

/-- A run that assigns `pi` at once, or changes it in place, is seen from the second. -/
theorem uses_leaking : ∃ last,
    Scene.Uses [1, 0] ⟨2, twoGlobals.context, []⟩ ["pi", "pi"] last ∧
      last.store.resolve? 3 "pi" = some (1, Value.str "five") := by
  have held : ∀ (text : String) (store : Store), (Value.str text).Held store :=
    fun text store => Value.held_scalar store (.str text)
  have assigned : Scene.Use [1, 0] ⟨2, twoGlobals.context, []⟩ _ _ :=
    .write (.assign 2 "pi" (Value.str "four")) ⟨⟨_, rfl⟩, held _ _⟩ rfl
  have changed := @Scene.Uses.withEntry [1, 0] Unit
    ((Write.assign 2 "pi" (Value.str "four")).run twoGlobals.context).2 _ [] 2 1 "pi" _
    (Value.str "five") _ rfl "slot" (fun _ context => ((), Value.str "five", context)) rfl _
    (.done _) (held _ _)
  exact ⟨_, .move assigned changed, rfl⟩

theorem shares_defaults_twoGlobals : ∃ askings events,
    Asked true ⟨twoGlobals, []⟩ askings events ∧
      SharesDefaults true twoGlobals.context askings events ∧
        (∃ last, Scene.Uses [1, 0] ⟨2, twoGlobals.context, []⟩ [] last ∧
          Apart 3 1 0 [] twoGlobals.context.store last.store) ∧
        ∃ last, Scene.Uses [1, 0] ⟨2, twoGlobals.context, []⟩ ["pi", "pi"] last ∧
          last.store.resolve? 3 "pi" ≠ twoGlobals.context.store.resolve? 3 "pi" := by
  obtain ⟨askings, events, asked, _⟩ := asked_twoGlobals
  obtain ⟨last, uses, _⟩ := uses_declaring
  obtain ⟨leaking, leaks, seen⟩ := uses_leaking
  have shares := asked.shares_defaults
  have before : twoGlobals.context.store.resolve? 3 "pi" = some (1, Value.str "three") := rfl
  refine ⟨askings, events, asked, shares, ⟨last, uses, ?_⟩, leaking, leaks, ?_⟩
  · exact shares.apart 1 0 2 3 rfl rfl ⟨⟨_, rfl⟩, rfl⟩ ⟨⟨_, rfl⟩, rfl⟩ (by decide) [] last uses
  · rw [seen, before]
    simp [Value.str]

end Session

end ScopedValues
