import ScopedValues.Proofs.Sessions.Contexts
import ScopedValues.Proofs.Views.Queries

/-!
Contract: runs of writes that stay inside a region of storage.

Owns the writes of lists and maps, the runs that they make up with changes in place,
and what such a run leaves alone.

Main statement: at every moment of a run of writes, also inside a change in place, a
region that is closed under elements and bindings and apart from what the run writes
is preserved.

A run may add to storage at any time; what it adds may be anything that fits.
-/

set_option autoImplicit false

namespace ScopedValues

/-! ## What a write leaves alone -/

namespace Store

/-- Storage has developed, and beyond the region its payloads are as they were. -/
structure Spares (region : Addr → Prop) (before after : Store) : Prop
    extends Grows before after where
  payloads : ∀ a, a < before.size → ¬ region a → after.payloads[a]? = before.payloads[a]?

section Spares

variable {region : Addr → Prop} {before after : Store}

theorem Spares.refl (region : Addr → Prop) (store : Store) : Spares region store store :=
  ⟨.refl store, fun _ _ _ => rfl⟩

theorem Spares.trans {middle : Store} (first : Spares region before middle)
    (second : Spares region middle after) : Spares region before after where
  toGrows := first.toGrows.trans second.toGrows
  payloads a present outside :=
    (second.payloads a (Nat.lt_of_lt_of_le present first.size) outside).trans
      (first.payloads a present outside)

theorem Extends.spares (extension : before.Extends after) : Spares region before after :=
  ⟨extension.grows, fun a present _ => extension.old a present⟩

/-- Work on lent storage spares what it would spare if the storage were not lent. -/
theorem Spares.regain {a : Addr} (spares : Spares region (before.lend a) after) :
    Spares region before after.regain where
  toRetains := (Retains.of_payloads (payloads_lend before a)).trans
    (spares.toRetains.trans (.of_payloads rfl))
  lent := by
    have lent : after.lent = a :: before.lent := spares.lent
    rw [Store.regain, lent]
    rfl
  payloads b present outside := spares.payloads b present outside

end Spares

section Writing

variable {region : Addr → Prop} {store after : Store} {a : Addr}

theorem spares_setItems (isList : store.IsList a) (inside : region a) (changed : List Value) :
    Spares region store (store.setItems a changed) where
  toGrows := grows_setItems isList changed
  payloads b _ outside :=
    payload_setItems_of_ne store a b changed fun same => outside (same ▸ inside)

theorem spares_setBindings (isScope : store.IsScope a) (inside : region a)
    (changed : Table Value) : Spares region store (store.setBindings a changed) where
  toGrows := grows_setBindings isScope changed
  payloads b _ outside :=
    payload_setBindings_of_ne store a b changed fun same => outside (same ▸ inside)

theorem spares_push (isList : store.IsList a) (inside : region a) {value : Value}
    (done : store.push a value = .ok after) : Spares region store after := by
  obtain ⟨items, _, done⟩ := bind_eq_ok done
  cases done
  exact spares_setItems isList inside _

theorem spares_setItem (isList : store.IsList a) (inside : region a) {index : Index}
    {value old : Value} (done : store.setItem a index value = .ok (old, after)) :
    Spares region store after := by
  obtain ⟨place, _, done⟩ := bind_eq_ok done
  cases done
  exact spares_setItems isList inside _

theorem spares_pop (isList : store.IsList a) (inside : region a) {index : Option Index}
    {removed : Value} (done : store.pop a index = .ok (removed, after)) :
    Spares region store after := by
  obtain ⟨items, _, done⟩ := bind_eq_ok done
  obtain ⟨position, _, done⟩ := bind_eq_ok done
  cases done
  exact spares_setItems isList inside _

theorem spares_insert (isScope : store.IsScope a) (inside : region a) {key : String}
    {value : Value} {old : Option Value} (done : store.insert a key value = .ok (old, after)) :
    Spares region store after := by
  obtain ⟨table, _, done⟩ := bind_eq_ok done
  cases done
  exact spares_setBindings isScope inside _

theorem spares_erase (isScope : store.IsScope a) (inside : region a) {key : String}
    {old : Option Value} (done : store.erase a key = .ok (old, after)) :
    Spares region store after := by
  obtain ⟨table, _, done⟩ := bind_eq_ok done
  cases done
  exact spares_setBindings isScope inside _

theorem spares_assign (sound : store.Sound) (isScope : store.IsScope a) {key : String}
    (inside : ∀ owner, store.owner? a key = .ok owner → region (owner.getD a)) {value : Value}
    (done : store.assign a key value = .ok after) : Spares region store after := by
  obtain ⟨owner, found, done⟩ := bind_eq_ok done
  obtain ⟨table, _, done⟩ := bind_eq_ok done
  cases done
  exact spares_setBindings (owner?_isScope sound isScope found) (inside owner found) _

theorem spares_entry (sound : store.Sound) (isScope : store.IsScope a) {key : String}
    {owner : Addr} {value : Value} (found : store.entry a key = .ok (owner, value, after))
    (inside : region owner) : Spares region store after := by
  obtain ⟨nearest, searched, found⟩ := bind_eq_ok found
  obtain ⟨table, _, found⟩ := bind_eq_ok found
  cases found
  exact spares_setBindings (owner?_isScope sound isScope searched) inside _

end Writing

end Store

namespace Context

open Store

variable {region : Addr → Prop}

/-- Work that keeps storage sound and spares what is beyond the region. -/
def sparing (region : Addr → Prop) : Discipline Context where
  sound context := context.store.Sound
  grows before after := Spares region before.store after.store
  refl context := .refl region context.store
  trans _ _ _ := Spares.trans

section Storage

variable {α : Type} {context : Context}

theorem sparing_ask (sound : context.store.Sound) (question : Store → Except Fault α) :
    (sparing region).Keeps context (ask question) fun x after =>
      question context.store = .ok x ∧ after = context :=
  .of_eq (ask_eq question context) sound (.refl region context.store)
    fun _ answered => ⟨answered, rfl⟩

theorem sparing_record (sound : context.store.Sound) (event : Event) :
    (sparing region).Keeps context (record event) fun _ after => after.store = context.store :=
  .of_eq (record_eq event context) sound (.refl region context.store) fun _ _ => rfl

theorem sparing_onStore (sound : context.store.Sound) {work : Store → Except Fault (α × Store)}
    (keeps : ∀ x after, work context.store = .ok (x, after) →
      after.Sound ∧ Spares region context.store after) :
    (sparing region).Keeps context (onStore work) fun _ _ => True := by
  apply (sparing_ask sound work).bind
  intro answer later _ _ kept
  rcases answer with ⟨x, store⟩
  rcases kept with ⟨done, rfl⟩
  obtain ⟨soundAfter, spares⟩ := keeps x store done
  apply (Discipline.Keeps.modify soundAfter spares).bind
  intro _ last lastSound _ _
  exact .pure lastSound trivial

theorem sparing_change (sound : context.store.Sound) {work : Store → Except Fault Store}
    (keeps : ∀ after, work context.store = .ok after →
      after.Sound ∧ Spares region context.store after) :
    (sparing region).Keeps context (change work) fun _ _ => True := by
  apply (sparing_ask sound work).bind
  intro store later _ _ kept
  rcases kept with ⟨done, rfl⟩
  obtain ⟨soundAfter, spares⟩ := keeps store done
  exact (Discipline.Keeps.modify soundAfter spares).mono fun _ _ _ => trivial

theorem sparing_assign (sound : context.store.Sound) {a : Addr}
    (isScope : context.store.IsScope a) {key : String}
    (inside : ∀ owner, context.store.owner? a key = .ok owner → region (owner.getD a))
    {value : Value} (held : value.Held context.store) :
    (sparing region).Keeps context (assign a key value) fun _ _ => True := by
  apply (sparing_ask sound _).bind
  intro owner context sound _ kept
  rcases kept with ⟨_, rfl⟩
  have writes : ∀ later : Context, later.store = context.store →
      (sparing region).Keeps later (change (·.assign a key value)) fun _ _ => True := by
    intro later same
    rw [← same] at sound isScope held inside
    exact sparing_change sound fun after done =>
      ⟨(develops_assign sound isScope held done).sound, spares_assign sound isScope inside done⟩
  cases owner with
  | some owner => exact writes context rfl
  | none =>
      apply (sparing_record sound _).bind
      intro _ logged _ _ same
      exact writes logged same

end Storage

section InPlace

variable {ρ : Type} {context : Context} {a : Addr}

theorem snd_withItem {index : Index} {position : Nat} {value : Value}
    (found : context.store.item a index = .ok (position, value)) (work : InPlace ρ) :
    (withItem a index work context).2 =
      (lending a value (fun store changed => store.setPosition a position changed) work
        context).2 := by
  unfold withItem
  rw [found]

theorem snd_withEntry {key : String} {owner : Addr} {value : Value} {store : Store}
    (found : context.store.entry a key = .ok (owner, value, store)) (work : InPlace ρ) :
    (withEntry a key work context).2 =
      (lending owner value (fun store changed => store.setEntry owner key changed) work
        { context with store }).2 := by
  unfold withEntry
  rw [found]

/-- A change in place ends with the changed value put back. -/
theorem snd_lending {value : Value} (putBack : Store → Value → Store) {work : InPlace ρ}
    {changed : Value} {after : Context}
    (done : (work value { context with store := context.store.lend a }).2 = (changed, after)) :
    (lending a value putBack work context).2 =
      { after with store := putBack after.store.regain changed } := by
  unfold lending
  generalize work value { context with store := context.store.lend a } = outcome at done
  obtain ⟨answer, pair⟩ := outcome
  cases done
  rfl

/-- What a change in place leaves alone is what the work on its place leaves alone. -/
theorem sparing_lending {value : Value} {putBack : Store → Value → Store} {work : InPlace ρ}
    {changed : Value} {after : Context}
    (done : (work value { context with store := context.store.lend a }).2 = (changed, after))
    (sound : after.store.Sound) (spares : Spares region (context.store.lend a) after.store)
    (puts : after.store.regain.Sound → context.store.Retains after.store.regain →
      (putBack after.store.regain changed).Sound ∧
        Spares region after.store.regain (putBack after.store.regain changed)) :
    (lending a value putBack work context).2.store.Sound ∧
      Spares region context.store (lending a value putBack work context).2.store := by
  have regained := spares.regain
  obtain ⟨lastSound, last⟩ := puts (sound.of_payloads rfl) regained.toRetains
  rw [snd_lending putBack done]
  exact ⟨lastSound, regained.trans last⟩

theorem sparing_withItem (isList : context.store.IsList a) (inside : region a) {index : Index}
    {position : Nat} {value changed : Value} {after : Context}
    (found : context.store.item a index = .ok (position, value)) {work : InPlace ρ}
    (done : (work value { context with store := context.store.lend a }).2 = (changed, after))
    (sound : after.store.Sound) (spares : Spares region (context.store.lend a) after.store)
    (held : changed.Held after.store) :
    (withItem a index work context).2.store.Sound ∧
      Spares region context.store (withItem a index work context).2.store := by
  rw [snd_withItem found]
  apply sparing_lending done sound spares
  intro storeSound retains
  have isListThere := retains.lists a isList
  have heldThere : changed.Held after.store.regain := held.retain (.of_payloads rfl)
  exact ⟨(develops_setPosition storeSound isListThere heldThere position).sound,
    spares_setItems isListThere inside _⟩

theorem sparing_withEntry (sound : context.store.Sound) (isScope : context.store.IsScope a)
    {key : String} {owner : Addr} (inside : region owner) {value changed : Value} {store : Store}
    {after : Context} (found : context.store.entry a key = .ok (owner, value, store))
    {work : InPlace ρ}
    (done : (work value { context with store := store.lend owner }).2 = (changed, after))
    (soundAfter : after.store.Sound) (spares : Spares region (store.lend owner) after.store)
    (held : changed.Held after.store) :
    (withEntry a key work context).2.store.Sound ∧
      Spares region context.store (withEntry a key work context).2.store := by
  obtain ⟨_, ownerIsScope, _⟩ := entry_keeps sound isScope found
  have declared := spares_entry sound isScope found inside
  have put : (withEntry a key work context).2.store.Sound ∧
      Spares region store (withEntry a key work context).2.store := by
    rw [snd_withEntry found]
    apply sparing_lending done soundAfter spares
    intro storeSound retains
    have isScopeThere := retains.scopes owner ownerIsScope
    have heldThere : changed.Held after.store.regain := held.retain (.of_payloads rfl)
    exact ⟨(develops_setEntry storeSound isScopeThere key heldThere).sound,
      spares_setBindings isScopeThere inside _⟩
  exact ⟨put.1, declared.trans put.2⟩

end InPlace

end Context

/-! ## Runs of writes -/

/-- A write of a list or map through its handle. -/
inductive Write where
  | push (a : Addr) (value : Value)
  | set (a : Addr) (index : Index) (value : Value)
  | pop (a : Addr) (index : Option Index)
  | insert (a : Addr) (key : String) (value : Value)
  | erase (a : Addr) (key : String)
  | assign (a : Addr) (key : String) (value : Value)

namespace Write

open Context

def run : Write → ContextM Unit
  | .push a value => change (·.push a value)
  | .set a index value => do let _ ← onStore (·.setItem a index value)
  | .pop a index => do let _ ← onStore (·.pop a index)
  | .insert a key value => do let _ ← onStore (·.insert a key value)
  | .erase a key => do let _ ← onStore (·.erase a key)
  | .assign a key value => Context.assign a key value

/-- The handle stands for storage of its kind and the value for what is there. -/
def Fits (store : Store) : Write → Prop
  | .push a value => store.IsList a ∧ value.Held store
  | .set a _ value => store.IsList a ∧ value.Held store
  | .pop a _ => store.IsList a
  | .insert a _ value => store.IsScope a ∧ value.Held store
  | .erase a _ => store.IsScope a
  | .assign a _ value => store.IsScope a ∧ value.Held store

/-- The payload that is written lies in the region; an assignment writes the owner's. -/
def Inside (store : Store) (region : Addr → Prop) : Write → Prop
  | .push a _ => region a
  | .set a _ _ => region a
  | .pop a _ => region a
  | .insert a _ _ => region a
  | .erase a _ => region a
  | .assign a key _ => ∀ owner, store.owner? a key = .ok owner → region (owner.getD a)

/-- A write spares what is beyond a region that it is inside of, also when it fails. -/
theorem keeps_run {region : Addr → Prop} {context : Context} (sound : context.store.Sound)
    {write : Write} (fits : write.Fits context.store) (inside : write.Inside context.store region) :
    (sparing region).Keeps context write.run fun _ _ => True := by
  have quiet : ∀ {α : Type} {work : Store → Except Fault (α × Store)},
      (sparing region).Keeps context (onStore work) (fun _ _ => True) →
        (sparing region).Keeps context (do let _ ← onStore work) fun _ _ => True :=
    fun keeps => keeps.bind fun _ _ laterSound _ _ => .pure laterSound trivial
  cases write with
  | push a value =>
      exact sparing_change sound fun after done =>
        ⟨(Store.develops_push sound fits.1 fits.2 done).sound,
          Store.spares_push fits.1 inside done⟩
  | set a index value =>
      exact quiet <| sparing_onStore sound fun old after done =>
        ⟨(Store.keeps_setItem sound fits.1 fits.2 index old after done).1.sound,
          Store.spares_setItem fits.1 inside done⟩
  | pop a index =>
      exact quiet <| sparing_onStore sound fun removed after done =>
        ⟨(Store.keeps_pop sound fits index removed after done).1.sound,
          Store.spares_pop fits inside done⟩
  | insert a key value =>
      exact quiet <| sparing_onStore sound fun old after done =>
        ⟨(Store.keeps_insert sound fits.1 key fits.2 old after done).1.sound,
          Store.spares_insert fits.1 inside done⟩
  | erase a key =>
      exact quiet <| sparing_onStore sound fun old after done =>
        ⟨(Store.keeps_erase sound fits key old after done).1.sound,
          Store.spares_erase fits inside done⟩
  | assign a key value => exact sparing_assign sound fits.1 inside fits.2

end Write

/--
Runs of writes whose written payloads lie in the region. In between, anything may be
added to storage. The work of a change in place may answer anything and be such a run
itself, on storage that is lent out meanwhile.
-/
inductive Writes (region : Addr → Prop) : Context → Context → Prop where
  | done (context : Context) : Writes region context context
  | grow {context middle after : Context} (adds : context.store.Extends middle.store)
      (sound : middle.store.Sound) (rest : Writes region middle after) :
      Writes region context after
  | write {context after : Context} (write : Write) (fits : write.Fits context.store)
      (inside : write.Inside context.store region)
      (rest : Writes region (write.run context).2 after) : Writes region context after
  | withItem {ρ : Type} {context inner after : Context} {a : Addr} {index : Index}
      {position : Nat} {value changed : Value} (isList : context.store.IsList a)
      (inside : region a) (found : context.store.item a index = .ok (position, value))
      (work : Context.InPlace ρ)
      (worked : (work value { context with store := context.store.lend a }).2 = (changed, inner))
      (within : Writes region { context with store := context.store.lend a } inner)
      (held : changed.Held inner.store)
      (rest : Writes region (Context.withItem a index work context).2 after) :
      Writes region context after
  | withEntry {ρ : Type} {context inner after : Context} {a owner : Addr} {key : String}
      {value changed : Value} {store : Store} (isScope : context.store.IsScope a)
      (inside : region owner) (found : context.store.entry a key = .ok (owner, value, store))
      (work : Context.InPlace ρ)
      (worked : (work value { context with store := store.lend owner }).2 = (changed, inner))
      (within : Writes region { context with store := store.lend owner } inner)
      (held : changed.Held inner.store)
      (rest : Writes region (Context.withEntry a key work context).2 after) :
      Writes region context after

/-- What a run comes through, up to a moment inside changes in place that are under way. -/
inductive Writes.UpTo (region : Addr → Prop) : Context → Context → Prop where
  | run {context now : Context} (writes : Writes region context now) : UpTo region context now
  | inItem {context middle now : Context} (writes : Writes region context middle) {a : Addr}
      (isList : middle.store.IsList a) (inside : region a)
      (rest : UpTo region { middle with store := middle.store.lend a } now) :
      UpTo region context now
  | inEntry {context middle now : Context} (writes : Writes region context middle)
      {a owner : Addr} {key : String} {value : Value} {store : Store}
      (isScope : middle.store.IsScope a) (inside : region owner)
      (found : middle.store.entry a key = .ok (owner, value, store))
      (rest : UpTo region { middle with store := store.lend owner } now) :
      UpTo region context now

namespace Writes

open Store

variable {region : Addr → Prop} {before after now : Context}

/-- A run of writes keeps storage sound and spares what is beyond its region. -/
theorem spares (writes : Writes region before after) (sound : before.store.Sound) :
    after.store.Sound ∧ Spares region before.store after.store := by
  induction writes with
  | done context => exact ⟨sound, .refl region context.store⟩
  | grow adds middleSound _ inductionHypothesis =>
      obtain ⟨lastSound, last⟩ := inductionHypothesis middleSound
      exact ⟨lastSound, adds.spares.trans last⟩
  | write write fits inside _ inductionHypothesis =>
      have keeps := Write.keeps_run sound fits inside
      obtain ⟨lastSound, last⟩ := inductionHypothesis keeps.sound
      exact ⟨lastSound, Spares.trans keeps.grows last⟩
  | withItem isList inside found work worked _ held _ onLent afterwards =>
      obtain ⟨innerSound, innerSpares⟩ := onLent (sound.of_payloads rfl)
      obtain ⟨middleSound, first⟩ :=
        Context.sparing_withItem isList inside found worked innerSound innerSpares held
      obtain ⟨lastSound, last⟩ := afterwards middleSound
      exact ⟨lastSound, first.trans last⟩
  | withEntry isScope inside found work worked _ held _ onLent afterwards =>
      have develops := (entry_keeps sound isScope found).1
      obtain ⟨innerSound, innerSpares⟩ := onLent (develops.sound.of_payloads rfl)
      obtain ⟨middleSound, first⟩ :=
        Context.sparing_withEntry sound isScope inside found worked innerSound innerSpares held
      obtain ⟨lastSound, last⟩ := afterwards middleSound
      exact ⟨lastSound, first.trans last⟩

end Writes

/-! ## What a run preserves -/

namespace Store

variable {part region : Addr → Prop} {before middle after : Store}

theorem Agree.closedAfter (view : Agree part before after) : after.Closed part := by
  intro a inside b kept
  rcases kept with ⟨value, member, named⟩
  rw [values_eq_of_payload (view.payloads a inside)] at member
  exact view.closed a inside b ⟨value, member, named⟩

theorem Preserves.trans (first : Preserves part before middle)
    (second : Preserves part middle after) : Preserves part before after where
  size := Nat.le_trans first.size second.size
  present := first.present
  closed := first.closed
  payloads a inside := (second.payloads a inside).trans (first.payloads a inside)
  lent a inside := (second.lent a inside).trans (first.lent a inside)
  whole := first.whole
  wholeAfter := second.wholeAfter
  retains := first.retains.trans second.retains

/-- A part of whole storage that nothing leads out of. -/
structure Part (part : Addr → Prop) (store : Store) : Prop extends Whole store where
  present : ∀ a, part a → a < store.size
  closed : store.Closed part

/-- All of whole storage is a part of it. -/
theorem Part.all {store : Store} (whole : store.Whole) : Part (· < store.size) store :=
  ⟨whole, fun _ inside => inside, whole.closed⟩

theorem Preserves.partAfter (preserves : Preserves part before after) : Part part after where
  toWhole := preserves.wholeAfter
  present a inside := Nat.lt_of_lt_of_le (preserves.present a inside) preserves.size
  closed := preserves.closedAfter

/-- What is spared beyond a region is preserved apart from it. -/
theorem Part.preserves_spared (known : Part part before)
    (apart : ∀ a, part a → ¬ region a) (sound : after.Sound)
    (spares : Spares region before after) : Preserves part before after where
  size := spares.size
  present := known.present
  closed := known.closed
  payloads a inside := spares.payloads a (known.present a inside) (apart a inside)
  lent a _ := by rw [spares.lent]
  whole := known.toWhole
  wholeAfter := {
    toSound := sound
    lent := fun a member => by
      rw [spares.lent] at member
      exact Nat.lt_of_lt_of_le (known.lent a member) spares.size }
  retains := spares.toRetains

/-- Lending out what is apart from a part preserves the part. -/
theorem Part.preserves_lend (known : Part part before) {a : Addr} (apart : ¬ part a)
    (present : a < before.size) : Preserves part before (before.lend a) where
  size := Nat.le_refl _
  present := known.present
  closed := known.closed
  payloads _ _ := rfl
  lent b inside := by
    have different : b ≠ a := fun same => apart (same ▸ inside)
    simp [lend, different]
  whole := known.toWhole
  wholeAfter := {
    toSound := known.toSound.of_payloads rfl
    lent := fun b member => by
      rcases List.mem_cons.mp member with rfl | old
      · exact present
      · exact known.lent b old }
  retains := .of_payloads rfl

end Store

open Store

/-- At every moment of a run, a part that is apart from what the run writes is preserved. -/
theorem Writes.UpTo.preserves {part region : Addr → Prop} {before now : Context}
    (run : Writes.UpTo region before now) (known : Part part before.store)
    (apart : ∀ a, part a → ¬ region a) : Preserves part before.store now.store := by
  induction run with
  | run writes =>
      obtain ⟨sound, spares⟩ := writes.spares known.toSound
      exact known.preserves_spared apart sound spares
  | inItem writes isList inside _ inductionHypothesis =>
      obtain ⟨sound, spares⟩ := writes.spares known.toSound
      have sofar := known.preserves_spared apart sound spares
      have lent := sofar.partAfter.preserves_lend
        (fun member => apart _ member inside) isList.lt_size
      exact (sofar.trans lent).trans (inductionHypothesis lent.partAfter)
  | inEntry writes isScope inside found _ inductionHypothesis =>
      obtain ⟨sound, spares⟩ := writes.spares known.toSound
      obtain ⟨develops, ownerIsScope, _⟩ := entry_keeps sound isScope found
      have declared := spares.trans (spares_entry sound isScope found inside)
      have sofar := known.preserves_spared apart develops.sound declared
      have lent := sofar.partAfter.preserves_lend
        (fun member => apart _ member inside) ownerIsScope.lt_size
      exact (sofar.trans lent).trans (inductionHypothesis lent.partAfter)

end ScopedValues
