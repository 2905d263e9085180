import ScopedValues.Proofs.Sessions.Contexts
import ScopedValues.Session.Expr

/-!
Contract: sound sessions, and the work that keeps them short of whole steps.

Owns the invariant of a session, its development, the rendering of values, variables,
and the evaluation of expressions, whose values are held by the session that results.

Does not own places, actions and steps.
-/

set_option autoImplicit false

namespace ScopedValues

open Store

/-! ## Rendering -/

namespace Context

variable {context : Context}

/-- The work keeps contexts sound; nothing is said about what it answers. -/
abbrev Steady {α : Type} (context : Context) (work : ContextM α) : Prop :=
  discipline.Keeps context work fun _ _ => True

theorem steady_ask {α : Type} (sound : context.Sound) (question : Store → Except Fault α) :
    context.Steady (ask question) :=
  (keeps_ask sound question).mono fun _ _ _ => trivial

theorem steady_shown (sound : context.Sound) (value : Value) : context.Steady (shown value) := by
  apply (steady_ask sound _).bind
  intro text later laterSound _ _
  exact .pure laterSound trivial

theorem steady_shownAll (sound : context.Sound) (values : List Value) :
    context.Steady (shownAll values) := by
  have all := Discipline.Keeps.mapM shown values sound
    (fun value _ later laterSound _ => steady_shown laterSound value) fun _ _ _ _ _ => trivial
  apply all.bind
  intro answers later laterSound _ _
  exact .pure laterSound trivial

theorem steady_truth? (sound : context.Sound) (value : Value) : context.Steady (truth? value) := by
  cases value with
  | scalar x => exact .pure sound trivial
  | tuple items => exact .pure sound trivial
  | list a =>
      apply (steady_ask sound _).bind
      intro items later laterSound _ _
      exact .pure laterSound trivial
  | map a => exact .pure sound trivial

theorem steady_compare (sound : context.Sound) (x y : Value) :
    context.Steady (compare x y) := by
  apply (steady_ask sound _).bind
  intro equal later laterSound _ _
  apply (steady_ask laterSound _).bind
  intro reversed last lastSound _ _
  exact .pure lastSound trivial

theorem steady_first? (sound : context.Sound) (value : Value) :
    context.Steady (first? value) := by
  unfold first?
  cases Cursor.over? value with
  | none => exact .pure sound trivial
  | some cursor =>
      apply (keeps_onStore sound cursor.next (Cursor.keeps_next sound.store cursor)).bind
      intro answer later laterSound _ _
      rcases answer with ⟨found, moved⟩
      cases found with
      | none => exact .pure laterSound trivial
      | some element =>
          apply (steady_shown laterSound element).bind
          intro shown last lastSound _ _
          exact .pure lastSound trivial

/-- The part of a profile that looks at copies of the value. -/
theorem steady_compared (sound : context.Sound) {value : Value}
    (held : value.Held context.store) {α : Type} (finish : Option Shown → Bool → Bool → Bool → α) :
    context.Steady (do
      let first ← first? value
      let equalsItself ← ask (·.equal value value)
      let copy ← onStore (·.copy value)
      let equalsCopy ← ask (·.equal copy value)
      let deepCopy ← onStore (·.deepCopy value)
      let equalsDeepCopy ← ask (·.equal deepCopy value)
      return finish first equalsItself equalsCopy equalsDeepCopy) := by
  apply (steady_first? sound value).bind
  intro first one oneSound growsOne _
  apply (steady_ask oneSound _).bind
  intro equalsItself two twoSound growsTwo _
  have heldTwo := held.grow (growsOne.trans growsTwo).store
  apply (keeps_onStore twoSound (·.copy value) (keeps_copy twoSound.store heldTwo)).bind
  intro copy three threeSound growsThree _
  apply (steady_ask threeSound _).bind
  intro equalsCopy four fourSound growsFour _
  have heldFour := heldTwo.grow (growsThree.trans growsFour).store
  apply (keeps_onStore fourSound (·.deepCopy value)
    (keeps_deepCopy fourSound.store heldFour)).bind
  intro deepCopy five fiveSound _ _
  apply (steady_ask fiveSound _).bind
  intro equalsDeepCopy last lastSound _ _
  exact .pure lastSound trivial

theorem steady_profile (sound : context.Sound) {value : Value}
    (held : value.Held context.store) : context.Steady (profile value) := by
  apply (steady_ask sound _).bind
  intro text one oneSound growsOne _
  apply (steady_truth? oneSound value).bind
  intro truth two twoSound growsTwo _
  have grown := growsOne.trans growsTwo
  cases value with
  | scalar x =>
      simp only [pure_bind]
      exact steady_compared twoSound (held.grow grown.store) _
  | tuple items =>
      simp only [pure_bind]
      exact steady_compared twoSound (held.grow grown.store) _
  | list a =>
      simp only [pure_bind]
      apply (steady_ask twoSound _).bind
      intro items later laterSound growsLater _
      exact steady_compared laterSound (held.grow (grown.trans growsLater).store) _
  | map a =>
      simp only [pure_bind]
      apply (steady_ask twoSound _).bind
      intro table later laterSound growsLater _
      exact steady_compared laterSound (held.grow (grown.trans growsLater).store) _

end Context

/-! ## Sessions -/

namespace Session

/-- The invariant of a session: a sound context that holds every variable. -/
structure Sound (session : Session) : Prop where
  context : session.context.Sound
  named : ∀ entry ∈ session.named.entries, entry.2.Held session.context.store

def discipline : Discipline Session where
  sound := Sound
  grows before after := before.context.Grows after.context
  refl session := .refl session.context
  trans _ _ _ := Context.Grows.trans

/-- The work keeps sessions sound; nothing is said about what it answers. -/
abbrev Steady {α : Type} (session : Session) (work : SessionM α) : Prop :=
  discipline.Keeps session work fun _ _ => True

/-- The work keeps sessions sound and answers a value that is held. -/
abbrev Yields (session : Session) (work : SessionM Value) : Prop :=
  discipline.Keeps session work fun value after => value.Held after.context.store

variable {session : Session}

theorem Sound.withContext (sound : session.Sound) {context : Context} (contextSound : context.Sound)
    (grows : session.context.Grows context) : Sound { session with context } :=
  ⟨contextSound, fun entry member => (sound.named entry member).grow grows.store⟩

theorem inContext_eq {α : Type} (work : ContextM α) (session : Session) :
    inContext work session =
      ((work session.context).1.mapError Failure.fault,
        { session with context := (work session.context).2 }) := by
  refine (Discipline.bind_get _ session).trans ?_
  rcases work session.context with ⟨answer | fault, context⟩ <;> rfl

theorem keeps_inContext (sound : session.Sound) {α : Type} {work : ContextM α}
    {result : α → Context → Prop} (keeps : Context.discipline.Keeps session.context work result) :
    discipline.Keeps session (inContext work) fun x after => result x after.context := by
  obtain ⟨contextSound, grows, holds⟩ := keeps
  refine .of_eq (inContext_eq work session) (sound.withContext contextSound grows) grows ?_
  intro x answered
  exact holds x (Discipline.eq_ok_of_mapError answered)

theorem get?_held (sound : session.Sound) {name : String} {value : Value}
    (bound : session.named.get? name = some value) : value.Held session.context.store :=
  sound.named _ (Table.mem_of_get? bound)

theorem valueOf_of_bound {name : String} {value : Value}
    (bound : session.named.get? name = some value) :
    valueOf name session = (.ok value, session) := by
  refine (Discipline.bind_get _ session).trans ?_
  rw [bound]
  rfl

theorem valueOf_of_unbound {name : String}
    (unbound : session.named.get? name = none) :
    valueOf name session = (.error (.unbound name), session) := by
  refine (Discipline.bind_get _ session).trans ?_
  rw [unbound]
  rfl

theorem yields_valueOf (sound : session.Sound) (name : String) :
    session.Yields (valueOf name) := by
  apply (Discipline.Keeps.get sound).bind
  intro _ session _ _ kept
  rcases kept with ⟨rfl, rfl⟩
  cases bound : session.named.get? name with
  | none => exact .throw sound _
  | some value => exact .pure sound (get?_held sound bound)

theorem keeps_scopeOf (sound : session.Sound) (name : String) :
    discipline.Keeps session (scopeOf name) fun a after => after.context.store.IsScope a := by
  apply (yields_valueOf sound name).bind
  intro value later laterSound _ held
  cases value with
  | map a => exact .pure laterSound ((Value.held_map _ a).mp held)
  | scalar x => exact .throw laterSound _
  | tuple items => exact .throw laterSound _
  | list a => exact .throw laterSound _

theorem steady_bind (sound : session.Sound) (name : String) {value : Value}
    (held : value.Held session.context.store) : session.Steady (Session.bind name value) := by
  have bound : discipline.Keeps session (Session.bind name value) fun _ after =>
      after = { session with named := session.named.insert name value } := by
    refine .modify ⟨sound.context, fun entry member => ?_⟩ (.refl session.context)
    rcases Table.mem_insert member with rfl | old
    · exact held
    · exact sound.named entry old
  exact bound.mono fun _ _ _ => trivial

theorem steady_unbind (sound : session.Sound) (name : String) : session.Steady (unbind name) := by
  have removed : discipline.Keeps session (unbind name) fun _ after =>
      after = { session with named := session.named.erase name } :=
    .modify ⟨sound.context, fun entry member => sound.named entry (Table.mem_erase member)⟩
      (.refl session.context)
  exact removed.mono fun _ _ _ => trivial

/-! ## Expressions -/

theorem keeps_evalScope (sound : session.Sound) (expr : ScopeExpr) :
    discipline.Keeps session (evalScope expr) fun a after => after.context.store.IsScope a := by
  cases expr with
  | root =>
      exact (keeps_inContext sound (Context.keeps_allocating sound.context
        (keeps_newRoot sound.context.store))).mono fun _ _ made => made.1
  | inBase => exact keeps_inContext sound (Context.keeps_newScope sound.context)
  | base =>
      have keeps := keeps_inContext sound (Context.keeps_baseScope sound.context)
      exact ⟨keeps.sound, keeps.grows, fun a ok =>
        (keeps.sound.context.base a (keeps.result a ok).1).1⟩
  | defaultGlobal =>
      have keeps := keeps_inContext sound (Context.keeps_defaultGlobalScope sound.context)
      exact ⟨keeps.sound, keeps.grows, fun a ok =>
        (keeps.sound.context.defaultGlobal a (keeps.result a ok)).1⟩
  | global => exact keeps_inContext sound (Context.keeps_globalScope sound.context)
  | child name =>
      apply (keeps_scopeOf sound name).bind
      intro parent later laterSound _ isScope
      exact keeps_inContext laterSound (Context.keeps_child laterSound.context isScope)
  | within name =>
      apply (keeps_scopeOf sound name).bind
      intro parent later laterSound _ isScope
      exact (keeps_inContext laterSound (Context.keeps_allocating laterSound.context
        (keeps_newChild laterSound.context.store isScope))).mono fun _ _ made => made.1

theorem steady_insertBinding (sound : session.Sound) {a : Addr}
    (isScope : session.context.store.IsScope a) (key : String) {value : Value}
    (held : value.Held session.context.store) : session.Steady (insertBinding a key value) := by
  apply (keeps_inContext sound (Context.keeps_onStore sound.context (·.insert a key value)
    (keeps_insert sound.context.store isScope key held))).bind
  intro _ later laterSound _ _
  exact .pure laterSound trivial

theorem steady_insertBindings {a : Addr} (bindings : List (String × Value)) :
    ∀ {session : Session}, session.Sound → session.context.store.IsScope a →
      (∀ binding ∈ bindings, binding.2.Held session.context.store) →
        session.Steady (bindings.forM fun binding => insertBinding a binding.1 binding.2) := by
  induction bindings with
  | nil => exact fun sound _ _ => .pure sound trivial
  | cons binding rest inductionHypothesis =>
      intro session sound isScope held
      rw [List.forall_mem_cons] at held
      apply (steady_insertBinding sound isScope binding.1 held.1).bind
      intro _ later laterSound grows _
      exact inductionHypothesis laterSound (grows.store.scopes a isScope)
        fun binding member => (held.2 binding member).grow grows.store

theorem yields_rootWith (sound : session.Sound) {bindings : List (String × Value)}
    (held : ∀ binding ∈ bindings, binding.2.Held session.context.store) :
    session.Yields (rootWith bindings) := by
  apply (keeps_evalScope sound .root).bind
  intro a later laterSound grows isScope
  apply (steady_insertBindings bindings laterSound isScope
    fun binding member => (held binding member).grow grows.store).bind
  intro _ last lastSound further _
  exact .pure lastSound ((Value.held_map _ a).mpr (further.store.scopes a isScope))

theorem yields_build (sound : session.Sound) (shape : Shape) {parts : List (String × Value)}
    (held : ∀ part ∈ parts, part.2.Held session.context.store) :
    session.Yields (build shape parts) := by
  have heldAll : ∀ item ∈ parts.map Prod.snd, item.Held session.context.store := by
    intro item member
    obtain ⟨part, present, rfl⟩ := List.mem_map.mp member
    exact held part present
  cases shape with
  | list =>
      apply (keeps_inContext sound (Context.keeps_allocating sound.context
        (keeps_newList sound.context.store heldAll))).bind
      intro a later laterSound _ isList
      exact .pure laterSound ((Value.held_list _ a).mpr isList)
  | tuple => exact .pure sound ((Value.held_tuple _ _).mpr heldAll)
  | map => exact yields_rootWith sound held

theorem yields_nested (shape : Shape) (depth : Nat) :
    ∀ {session : Session} {value : Value}, session.Sound → value.Held session.context.store →
      session.Yields (nested shape depth value) := by
  induction depth with
  | zero => exact fun sound held => .pure sound held
  | succ depth inductionHypothesis =>
      intro session value sound held
      have parts : ∀ part ∈ [("k", value)], part.2.Held session.context.store := by
        simpa using held
      apply (yields_build sound shape parts).bind
      intro outer later laterSound _ outerHeld
      exact inductionHypothesis laterSound outerHeld

theorem rangeParts_held (store : Store) (count : Nat) :
    ∀ part ∈ rangeParts count, part.2.Held store := by
  intro part member
  obtain ⟨n, _, rfl⟩ := List.mem_map.mp member
  exact Value.held_scalar store _

mutual

theorem yields_eval : ∀ (expr : Expr) {session : Session}, session.Sound →
    session.Yields (eval expr)
  | .scalar x, _, sound => .pure sound (Value.held_scalar _ x)
  | .tuple items, _, sound => by
      apply (keeps_evalAll items sound).bind
      intro values later laterSound _ held
      exact .pure laterSound ((Value.held_tuple _ values).mpr held)
  | .copiedTuple items, _, sound => by
      apply (keeps_evalAll items sound).bind
      intro values later laterSound _ held
      apply (keeps_inContext laterSound (Context.keeps_onStore laterSound.context
        (·.deepCopyAll values) (keeps_deepCopyAll laterSound.context.store held))).bind
      intro copies last lastSound _ copiesHeld
      exact .pure lastSound ((Value.held_tuple _ copies).mpr copiesHeld)
  | .list items, _, sound => by
      apply (keeps_evalAll items sound).bind
      intro values later laterSound _ held
      apply (keeps_inContext laterSound (Context.keeps_allocating laterSound.context
        (keeps_newList laterSound.context.store held))).bind
      intro a last lastSound _ isList
      exact .pure lastSound ((Value.held_list _ a).mpr isList)
  | .map scope bindings, _, sound => by
      apply (keeps_evalScope sound scope).bind
      intro a later laterSound _ isScope
      apply (steady_evalBindings a bindings laterSound isScope).bind
      intro _ last lastSound grows _
      exact .pure lastSound ((Value.held_map _ a).mpr (grows.store.scopes a isScope))
  | .copy name, _, sound => by
      apply (yields_valueOf sound name).bind
      intro value later laterSound _ held
      exact keeps_inContext laterSound (Context.keeps_onStore laterSound.context (·.copy value)
        (keeps_copy laterSound.context.store held))
  | .deepCopy name, _, sound => by
      apply (yields_valueOf sound name).bind
      intro value later laterSound _ held
      exact keeps_inContext laterSound (Context.keeps_onStore laterSound.context
        (·.deepCopy value) (keeps_deepCopy laterSound.context.store held))
  | .take name, _, sound => by
      apply (yields_valueOf sound name).bind
      intro value later laterSound _ held
      apply (steady_unbind laterSound name).bind
      intro _ last lastSound grows _
      exact .pure lastSound (held.grow grows.store)
  | .nest shape depth inner, _, sound => by
      apply (yields_eval inner sound).bind
      intro value later laterSound _ held
      exact yields_nested shape depth laterSound held
  | .range shape count, _, sound => yields_build sound shape (rangeParts_held _ count)
termination_by structural expr => expr

theorem keeps_evalAll : ∀ (items : List Expr) {session : Session}, session.Sound →
    discipline.Keeps session (evalAll items) fun values after =>
      ∀ value ∈ values, value.Held after.context.store
  | [], _, sound => .pure sound (by simp)
  | item :: rest, _, sound => by
      apply (yields_eval item sound).bind
      intro value later laterSound _ held
      apply (keeps_evalAll rest laterSound).bind
      intro values last lastSound grows heldAll
      refine .pure lastSound ?_
      rw [List.forall_mem_cons]
      exact ⟨held.grow grows.store, heldAll⟩
termination_by structural items => items

theorem steady_evalBindings (a : Addr) : ∀ (bindings : List (String × Expr)) {session : Session},
    session.Sound → session.context.store.IsScope a → session.Steady (evalBindings a bindings)
  | [], _, sound, _ => .pure sound trivial
  | binding :: rest, _, sound, isScope => by
      apply (steady_evalBinding a binding sound isScope).bind
      intro _ later laterSound grows _
      exact steady_evalBindings a rest laterSound (grows.store.scopes a isScope)
termination_by structural bindings => bindings

theorem steady_evalBinding (a : Addr) : ∀ (binding : String × Expr) {session : Session},
    session.Sound → session.context.store.IsScope a → session.Steady (evalBinding a binding)
  | (key, expr), _, sound, isScope => by
      apply (yields_eval expr sound).bind
      intro value later laterSound grows held
      exact steady_insertBinding laterSound (grows.store.scopes a isScope) key held
termination_by structural binding => binding

end

/-! ## Operands -/

/-- A settled operand whose value, if it has one already, is held. -/
def Settled.Held (store : Store) : Settled → Prop
  | .pending _ => True
  | .ready value => value.Held store

theorem keeps_settle (sound : session.Sound) (x : Operand) :
    discipline.Keeps session (settle x) fun settled after => settled.Held after.context.store := by
  cases x with
  | inPlace name => exact .pure sound trivial
  | fresh expr =>
      apply (yields_eval expr sound).bind
      intro value later laterSound _ held
      exact .pure laterSound held

theorem Settled.Held.grow {settled : Settled} {before after : Store}
    (held : settled.Held before) (growth : before.Grows after) : settled.Held after := by
  cases settled with
  | pending name => trivial
  | ready value => exact Value.Held.grow held growth

theorem yields_locate (sound : session.Sound) {settled : Settled}
    (held : settled.Held session.context.store) : session.Yields settled.locate := by
  cases settled with
  | pending name => exact yields_valueOf sound name
  | ready value => exact .pure sound held

theorem yields_operand (sound : session.Sound) (x : Operand) : session.Yields (operand x) := by
  apply (keeps_settle sound x).bind
  intro settled later laterSound _ held
  exact yields_locate laterSound held

theorem keeps_operands (sound : session.Sound) (x y : Operand) :
    discipline.Keeps session (operands x y) fun pair after =>
      pair.1.Held after.context.store ∧ pair.2.Held after.context.store := by
  apply (keeps_settle sound x).bind
  intro left one oneSound _ leftHeld
  apply (keeps_settle oneSound y).bind
  intro right two twoSound growsTwo rightHeld
  apply (yields_locate twoSound (leftHeld.grow growsTwo.store)).bind
  intro first three threeSound growsThree firstHeld
  apply (yields_locate threeSound (rightHeld.grow growsThree.store)).bind
  intro second last lastSound growsLast secondHeld
  exact .pure lastSound ⟨firstHeld.grow growsLast.store, secondHeld⟩

end Session

end ScopedValues
