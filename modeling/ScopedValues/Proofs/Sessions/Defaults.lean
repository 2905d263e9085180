import ScopedValues.Proofs.Sessions.Contexts

/-!
Contract: what asking for the default scopes and for scopes inside them comes to.

Owns the context after the base scope, or the default one, has been asked for.

Main statements: each of the two is made when it is asked for first and found ever after; and
each new scope is made inside one of them.

Does not own what entering a scope records.
-/

set_option autoImplicit false

namespace ScopedValues.Context

variable {context : Context}

/-! ## The base scope -/

/-- The base scope, which comes next in storage if it has not been made yet. -/
def baseAddr (context : Context) : Addr :=
  context.base.getD context.store.size

/-- The context after the base scope has been asked for. -/
def withBase (context : Context) : Context :=
  match context.base with
  | some _ => context
  | none => { context with
      store := context.store.newRoot.2
      base := some context.store.size
      log := context.logged .baseCreated }

theorem baseScope_eq (context : Context) :
    baseScope context = (.ok context.baseAddr, context.withBase) := by
  refine (Discipline.bind_get _ context).trans ?_
  rw [baseAddr, withBase]
  cases context.base with
  | some a => rfl
  | none =>
      refine (Discipline.bind_of_ok (record_eq .baseCreated context)).trans ?_
      exact Discipline.bind_of_ok (onStore_eq_ok rfl)

theorem base_withBase (context : Context) : context.withBase.base = some context.baseAddr := by
  rw [baseAddr, withBase]
  cases made : context.base with
  | some a => exact made
  | none => rfl

/-! ## The default scope -/

/-- The context in which the default scope is made: the base scope is asked for first. -/
def beforeDefault (context : Context) : Context :=
  withBase { context with log := context.logged .defaultGlobalCreated }

/-- The default scope, which comes next in storage if it has not been made yet. -/
def defaultAddr (context : Context) : Addr :=
  context.defaultGlobal.getD context.beforeDefault.store.size

/-- The context after the default scope has been asked for. -/
def withDefault (context : Context) : Context :=
  match context.defaultGlobal with
  | some _ => context
  | none => { context.beforeDefault with
      store := (context.beforeDefault.store.newChild context.baseAddr).2
      defaultGlobal := some context.beforeDefault.store.size }

theorem defaultGlobalScope_eq (context : Context) :
    defaultGlobalScope context = (.ok context.defaultAddr, context.withDefault) := by
  refine (Discipline.bind_get _ context).trans ?_
  rw [defaultAddr, withDefault]
  cases context.defaultGlobal with
  | some a => rfl
  | none =>
      refine (Discipline.bind_of_ok (record_eq .defaultGlobalCreated context)).trans ?_
      refine (Discipline.bind_of_ok (baseScope_eq _)).trans ?_
      exact Discipline.bind_of_ok (onStore_eq_ok rfl)

theorem default_withDefault (context : Context) :
    context.withDefault.defaultGlobal = some context.defaultAddr := by
  rw [defaultAddr, withDefault]
  cases made : context.defaultGlobal with
  | some a => exact made
  | none => rfl

/-! ## Scopes inside them -/

theorem newScope_eq (context : Context) :
    newScope context = (.ok context.withBase.store.size, { context.withBase with
      store := (context.withBase.store.newChild context.baseAddr).2 }) :=
  (Discipline.bind_of_ok (baseScope_eq context)).trans (onStore_eq_ok rfl)

theorem globalScope_eq (context : Context) :
    globalScope context = child context.defaultAddr context.withDefault :=
  Discipline.bind_of_ok (defaultGlobalScope_eq context)

end ScopedValues.Context
