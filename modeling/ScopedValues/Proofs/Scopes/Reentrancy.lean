import ScopedValues.Ascent
import ScopedValues.Proofs.Habits.Peace
import ScopedValues.Proofs.Scopes.Resolution

/-!
Contract: operations on scopes while some storage is lent out.

Owns the searches that come to a scope that is lent out, what they and the writes that follow
them do then and otherwise, and the sessions in which nothing is in the way.

Main statement: while changes in place are under way, the search for a key, an assignment and
a further change in place stop exactly where a scope that is held comes before the first
binding of the key, without having changed anything, and otherwise do what they would do
outside; and where no change is under way, nothing stops in this way.
-/

set_option autoImplicit false

namespace ScopedValues

namespace Store

variable {store : Store} {held : List Addr} {key : String}

/-! ## Searches that are held up -/

/-- Of these scopes, one that is held comes before the first that binds the key. -/
def BlockedAlong (store : Store) (held : List Addr) (key : String) (scopes : List Addr) : Prop :=
  ∃ nearer scope outer, scopes = nearer ++ scope :: outer ∧ scope ∈ held ∧
    ∀ inner ∈ nearer, store.binds key inner = false

/-- A scope that is held stands on the chain of `a`, and no nearer scope binds the key. -/
def Blocked (store : Store) (held : List Addr) (a : Addr) (key : String) : Prop :=
  store.BlockedAlong held key (store.chain a)

theorem not_blockedAlong_nil : ¬ store.BlockedAlong held key [] := by
  rintro ⟨nearer, scope, outer, split, _⟩
  simp at split

theorem blockedAlong_cons {scope : Addr} {outer : List Addr} :
    store.BlockedAlong held key (scope :: outer) ↔
      scope ∈ held ∨ store.binds key scope = false ∧ store.BlockedAlong held key outer := by
  constructor
  · rintro ⟨nearer, last, further, split, lent, unbound⟩
    cases nearer with
    | nil =>
        obtain ⟨rfl, rfl⟩ := List.cons.inj split
        exact .inl lent
    | cons first nearer =>
        obtain ⟨rfl, rfl⟩ := List.cons.inj split
        rw [List.forall_mem_cons] at unbound
        exact .inr ⟨unbound.1, nearer, last, further, rfl, lent, unbound.2⟩
  · rintro (lent | ⟨here, nearer, last, further, rfl, lent, unbound⟩)
    · exact ⟨[], scope, outer, rfl, lent, by simp⟩
    · exact ⟨scope :: nearer, last, further, rfl, lent,
        List.forall_mem_cons.mpr ⟨here, unbound⟩⟩

theorem firstBinding_of_blocked {scopes : List Addr}
    (blocked : store.BlockedAlong store.lent key scopes) :
    store.firstBinding key scopes = .error .conflict := by
  induction scopes with
  | nil => exact absurd blocked not_blockedAlong_nil
  | cons scope outer inductionHypothesis =>
      rw [firstBinding, readScope_eq]
      by_cases lent : scope ∈ store.lent
      · rw [if_pos lent]
        rfl
      · obtain ⟨unbound, further⟩ := (blockedAlong_cons.mp blocked).resolve_left lent
        rw [if_neg lent]
        change (if store.binds key scope = true then _ else _) = _
        rw [if_neg (by simp [unbound]), inductionHypothesis further]

theorem firstBinding_of_clear {scopes : List Addr}
    (clear : ¬ store.BlockedAlong store.lent key scopes) :
    store.firstBinding key scopes = .ok (scopes.find? (store.binds key)) := by
  induction scopes with
  | nil => rfl
  | cons scope outer inductionHypothesis =>
      rw [blockedAlong_cons, not_or] at clear
      obtain ⟨free, further⟩ := clear
      rw [firstBinding, readScope_eq, if_neg free]
      change (if store.binds key scope = true then _ else _) = _
      by_cases bound : store.binds key scope = true
      · rw [if_pos bound, List.find?_cons_of_pos bound]
      · rw [Bool.not_eq_true] at bound
        have onward : ¬ store.BlockedAlong store.lent key outer := fun blocked =>
          further ⟨bound, blocked⟩
        rw [if_neg (by simp [bound]), List.find?_cons_of_neg (by simp [bound]),
          inductionHypothesis onward]

theorem owner?_of_blocked {a : Addr} (blocked : store.Blocked store.lent a key) :
    store.owner? a key = .error .conflict :=
  firstBinding_of_blocked blocked

theorem entry_of_blocked {a : Addr} (blocked : store.Blocked store.lent a key) :
    store.entry a key = .error .conflict := by
  rw [entry, owner?_of_blocked blocked]
  rfl

theorem not_blocked_of_nothing_held (store : Store) (a : Addr) (key : String) :
    ¬ store.Blocked [] a key := by
  rintro ⟨_, _, _, _, impossible, _⟩
  cases impossible

/-- A write of one key holds up the search for no other one. -/
theorem WritesKey.blocked_other {before after : Store} {target : Addr}
    (write : WritesKey before after target key) (held : List Addr) (a : Addr) {second : String}
    (different : second ≠ key) : after.Blocked held a second ↔ before.Blocked held a second := by
  have binds : ∀ scope, after.binds second scope = before.binds second scope := by
    intro scope
    rw [binds_eq_isSome, binds_eq_isSome, write.get?_other scope different]
  simp only [Blocked, BlockedAlong, write.chain_eq, binds]

/-- A search that no held scope holds up ends at a scope that is not lent out. -/
theorem clear_of_not_blocked (sound : store.Sound) {a : Addr}
    (free : ¬ store.Blocked store.lent a key) : store.Clear a key where
  found := firstBinding_of_clear free
  free := by
    intro lent
    obtain ⟨nearer, outer, split, unbound⟩ := exists_writer_split store a key sound
    refine free ⟨nearer, _, outer, split, lent, fun scope member => ?_⟩
    rw [binds_eq_isSome, unbound scope member]
    rfl

end Store

/-! ## Work that stops and work that does not -/

namespace Context

open Store

variable {α ρ : Type} {context : Context}

/-- The same context with other storage lent out. -/
def withLent (context : Context) (held : List Addr) : Context :=
  { context with store := { context.store with lent := held } }

/-- The work meets a conflict in exactly this case, and then has changed nothing. -/
structure Halts (halting : Prop) (work : ContextM α) (context : Context) : Prop where
  conflict_iff : (work context).1 = .error .conflict ↔ halting
  unchanged : halting → (work context).2 = context

/-- The work does what it would do if nothing were lent out. -/
def Unhindered (work : ContextM α) (context : Context) : Prop :=
  work context = ((work (context.withLent [])).1,
    (work (context.withLent [])).2.withLent context.store.lent)

/-- Work in place that makes of a value of `owner` what it would make of it if nothing but
`owner` were lent out. -/
def Heedless (work : InPlace ρ) (owner : Addr) (held : List Addr) (value : Value)
    (context : Context) : Prop :=
  work value (context.withLent (owner :: held)) =
    ((work value (context.withLent [owner])).1, (work value (context.withLent [owner])).2.1,
      (work value (context.withLent [owner])).2.2.withLent (owner :: held))

/-- Work in place that touches nothing but its slot. -/
def slotOnly (change : Value → ρ × Value) : InPlace ρ :=
  fun value context => ((change value).1, (change value).2, context)

/-- A change in place works on this value of this owner, in this context, where the key has
been declared; and so it would if nothing were lent out. -/
structure AtSamePlace (context : Context) (a : Addr) (key : String) (owner : Addr)
    (value : Value) (declared : Context) : Prop where
  free : owner ∉ context.store.lent
  lent : declared.store.lent = context.store.lent
  found : ∀ {ρ : Type} (work : InPlace ρ),
    withEntry a key work context = onEntry owner key value work declared
  foundIdle : ∀ {ρ : Type} (work : InPlace ρ),
    withEntry a key work (context.withLent []) =
      onEntry owner key value work (declared.withLent [])
  /-- The change is the same if the work on the value is. -/
  change : ∀ {ρ : Type} (work : InPlace ρ),
    Heedless work owner context.store.lent value declared →
      Unhindered (withEntry a key work) context

/-- What the search for a key from `a`, and the writes that follow it, do while `held` is
lent out. -/
structure Reentrant (context : Context) (held : List Addr) (a : Addr) (key : String) : Prop where
  search : Halts (context.store.Blocked held a key) (ask (·.owner? a key)) context
  assignment : ∀ value,
    Halts (context.store.Blocked held a key) (assign a key value) context
  change : ∀ {ρ : Type} (work : InPlace ρ),
    Halts (context.store.Blocked held a key) (withEntry a key work) context
  sameOwner : ¬ context.store.Blocked held a key → Unhindered (ask (·.owner? a key)) context
  sameAssignment : ¬ context.store.Blocked held a key → ∀ value,
    Unhindered (assign a key value) context
  samePlace : ¬ context.store.Blocked held a key → ∃ owner value declared,
    AtSamePlace context a key owner value declared
  sameSlot : ¬ context.store.Blocked held a key → ∀ {ρ : Type} (change : Value → ρ × Value),
    Unhindered (withEntry a key (slotOnly change)) context

theorem Halts.of_blocked {halting : Prop} {work : ContextM α} (blocked : halting)
    (stopped : work context = (.error .conflict, context)) : Halts halting work context where
  conflict_iff := by simp [stopped, blocked]
  unchanged _ := by rw [stopped]

theorem Halts.of_clear {halting : Prop} {work : ContextM α} (clear : ¬ halting) {x : α}
    (answered : (work context).1 = .ok x) : Halts halting work context where
  conflict_iff := by simp [answered, clear]
  unchanged blocked := absurd blocked clear

/-! ## Blocked -/

section Blocked

variable {a : Addr} {key : String}

theorem owner?_of_blocked (blocked : context.store.Blocked context.store.lent a key) :
    ask (·.owner? a key) context = (.error .conflict, context) := by
  rw [ask_eq, Store.owner?_of_blocked blocked]

theorem assign_of_blocked (blocked : context.store.Blocked context.store.lent a key)
    (value : Value) : assign a key value context = (.error .conflict, context) :=
  Discipline.bind_of_error (owner?_of_blocked blocked)

theorem withEntry_of_blocked (blocked : context.store.Blocked context.store.lent a key)
    (work : InPlace ρ) : withEntry a key work context = (.error .conflict, context) := by
  unfold withEntry
  rw [entry_of_blocked blocked]

end Blocked

/-! ## Clear -/

section Clear

variable {a : Addr} {key : String}

@[simp]
theorem nearest?_withLent (context : Context) (held : List Addr) (a : Addr) (key : String) :
    (context.withLent held).store.nearest? a key = context.store.nearest? a key := by
  have parents : ∀ scope, ((context.withLent held).store.scope scope).parent =
      (context.store.scope scope).parent := fun _ => rfl
  rw [nearest?, chain_eq_of_parents parents]
  rfl

@[simp]
theorem writer_withLent (context : Context) (held : List Addr) (a : Addr) (key : String) :
    (context.withLent held).store.writer a key = context.store.writer a key := by
  rw [writer, nearest?_withLent]
  rfl

theorem unhindered_owner? (clear : context.store.Clear a key) :
    Unhindered (ask (·.owner? a key)) context := by
  have idle : (context.withLent []).store.Clear a key := .of_idle rfl a key
  unfold Unhindered
  rw [ask_eq, ask_eq, clear.found, idle.found, nearest?_withLent]
  rfl

theorem unhindered_assign (clear : context.store.Clear a key) (value : Value) :
    Unhindered (assign a key value) context := by
  have idle : (context.withLent []).store.Clear a key := .of_idle rfl a key
  unfold Unhindered
  rw [assign_eq clear, assign_eq idle, nearest?_withLent, writer_withLent]
  rfl

/-- The context in which a change in place begins: the key has been declared. -/
def declaring (context : Context) (a : Addr) (key : String) : Context :=
  { context with
    store := context.store.setBindings (context.store.writer a key)
      ((context.store.scope (context.store.writer a key)).bindings.declare key Value.none) }

end Clear

/-- Work in place on a binding, step by step. -/
theorem onEntry_eq (owner : Addr) (key : String) (value : Value) (work : InPlace ρ)
    (context : Context) :
    onEntry owner key value work context =
      (.ok (work value { context with store := context.store.lend owner }).1,
        { (work value { context with store := context.store.lend owner }).2.2 with
          store := (work value
            { context with store := context.store.lend owner }).2.2.store.regain.setEntry owner key
              (work value { context with store := context.store.lend owner }).2.1 }) :=
  rfl

theorem Heedless.onEntry_withLent {work : InPlace ρ} {owner : Addr} {value : Value}
    {held : List Addr} (heedless : Heedless work owner held value context) (key : String) :
    onEntry owner key value work (context.withLent held) =
      ((onEntry owner key value work (context.withLent [])).1,
        (onEntry owner key value work (context.withLent [])).2.withLent held) := by
  have under : work value { context.withLent held with
      store := (context.withLent held).store.lend owner } = _ := heedless
  rw [onEntry_eq, onEntry_eq, under]
  rfl

theorem heedless_slotOnly (change : Value → ρ × Value) (owner : Addr) (held : List Addr)
    (value : Value) (context : Context) : Heedless (slotOnly change) owner held value context :=
  rfl

theorem atSamePlace {a : Addr} {key : String} (clear : context.store.Clear a key) : ∃ value,
    AtSamePlace context a key (context.store.writer a key) value (context.declaring a key) := by
  have idle : (context.withLent []).store.Clear a key := .of_idle rfl a key
  have entered := entry_eq idle
  rw [writer_withLent] at entered
  refine ⟨_, {
    free := clear.free
    lent := rfl
    found := fun work => withEntry_eq (entry_eq clear) work
    foundIdle := fun work => withEntry_eq entered work
    change := fun work heedless => ?_ }⟩
  unfold Unhindered
  rw [withEntry_eq (entry_eq clear), withEntry_eq entered]
  exact heedless.onEntry_withLent key

theorem reentrant (sound : context.store.Sound) (a : Addr) (key : String) :
    Reentrant context context.store.lent a key := by
  by_cases blocked : context.store.Blocked context.store.lent a key
  · exact {
      search := .of_blocked blocked (owner?_of_blocked blocked)
      assignment := fun value => .of_blocked blocked (assign_of_blocked blocked value)
      change := fun work => .of_blocked blocked (withEntry_of_blocked blocked work)
      sameOwner := absurd blocked
      sameAssignment := absurd blocked
      samePlace := absurd blocked
      sameSlot := fun free => absurd blocked free }
  · have clear := clear_of_not_blocked sound blocked
    obtain ⟨value, place⟩ := atSamePlace clear
    exact {
      search := .of_clear blocked (congrArg Prod.fst ((ask_eq _ context).trans
        (congrArg (·, context) clear.found)))
      assignment := fun value => .of_clear blocked (congrArg Prod.fst (assign_eq clear value))
      change := fun work => .of_clear blocked (congrArg Prod.fst (place.found work))
      sameOwner := fun _ => unhindered_owner? clear
      sameAssignment := fun _ => unhindered_assign clear
      samePlace := fun _ => ⟨_, value, _, place⟩
      sameSlot := fun _ _ change => place.change _ (heedless_slotOnly change _ _ _ _) }

/-! ## Nothing lent out -/

theorem withItem_ne_conflict (idle : context.store.lent = []) (a : Addr) (index : Index)
    (work : InPlace ρ) : (withItem a index work context).1 ≠ .error .conflict := by
  unfold withItem
  cases found : context.store.item a index with
  | error fault =>
      intro same
      cases same
      exact calm_item idle a index .conflict found rfl
  | ok place => simp

theorem withEntry_ne_conflict (idle : context.store.lent = []) (a : Addr) (key : String)
    (work : InPlace ρ) : (withEntry a key work context).1 ≠ .error .conflict := by
  rw [withEntry_eq (entry_eq (.of_idle idle a key))]
  simp [onEntry]

end Context

theorem Ascent.next_ne_conflict {store : Store} (idle : store.lent = []) (ascent : Ascent) :
    (ascent.next store).1 ≠ .error .conflict := by
  obtain ⟨_ | a⟩ := ascent
  · simp [next]
  · have calm := Store.calm_parent? idle a .conflict
    simp only [next]
    cases passed : store.parent? a with
    | ok parent => simp
    | error fault =>
        intro same
        cases same
        exact calm passed rfl

namespace Session

open Context

/-- Nothing that is done in this session meets a conflict, work in place aside that touches
more than its slot. -/
structure Unimpeded (session : Session) : Prop where
  steps : ∀ step : Step, step.worksInPlace = false →
    (perform step session).1 ≠ .error (.fault .conflict)
  items : ∀ {ρ : Type} (a : Addr) (index : Index) (change : Value → ρ × Value),
    (withItem a index (slotOnly change) session.context).1 ≠ .error .conflict
  entries : ∀ {ρ : Type} (a : Addr) (key : String) (change : Value → ρ × Value),
    (withEntry a key (slotOnly change) session.context).1 ≠ .error .conflict
  ascents : ∀ ascent : Ascent, (ascent.next session.context.store).1 ≠ .error .conflict

/-- Touching what a change in place holds is the only way to meet a conflict. -/
theorem Reached.reentrancy {session : Session} {frames : List Frame}
    (reached : session.Reached frames) :
    (∀ (a : Addr) (key : String),
      session.context.Reentrant (frames.map Frame.storage) a key) ∧
        (frames = [] → session.Unimpeded) := by
  have stands := reached.stands
  constructor
  · intro a key
    rw [← stands.lent]
    exact reentrant stands.sound.context.store a key
  · rintro rfl
    have idle : session.context.store.lent = [] := stands.lent
    exact {
      steps := fun step apart => (peaceful_perform apart session idle).1
      items := fun a index change => withItem_ne_conflict idle a index _
      entries := fun a key change => withEntry_ne_conflict idle a key _
      ascents := Ascent.next_ne_conflict idle }

/-- The change in place of `x` in the outer scope, seen from inside. -/
def insideOuter : Session :=
  twoScopes.enter (.entry 0 "x" "slot") (Value.str "first") twoScopes.context.store

theorem reached_insideOuter : insideOuter.Reached [.entry 0 "x" "slot"] := by
  have handle : twoScopes.named.get? "outer" = some (.map 0) := rfl
  exact .enterEntry reachable_twoScopes handle rfl "slot"

/-- From the inner scope, `x` is out of reach while the outer scope holds it. -/
theorem reentrancy_insideOuter :
    insideOuter.Reached [.entry 0 "x" "slot"] ∧ insideOuter.context.store.Blocked [0] 1 "x" ∧
      insideOuter.context.Reentrant [0] 1 "x" :=
  ⟨reached_insideOuter, ⟨[1], 0, [], rfl, by simp, by decide⟩,
    reached_insideOuter.reentrancy.1 1 "x"⟩

end Session

end ScopedValues
