import ScopedValues.Proofs.Ownership.Contexts
import ScopedValues.Proofs.Sessions.Variables

/-!
Contract: what evaluating an expression makes of the slots in hand.

Owns the expressions whose values are made of new storage alone, those that collect no
tuple from other values, the slots that variables keep, and the spending of expressions.

Main statement: a new value comes with every address in it in hand, and any other value
with the addresses in its tuples.

Only collecting moves elements into a tuple as they are, so nothing else is ruled out.
-/

set_option autoImplicit false

namespace ScopedValues

/-! ## New values -/

/-- Whether the scope is made, not found. -/
def ScopeExpr.isNew : ScopeExpr → Bool
  | .base => false
  | .defaultGlobal => false
  | _ => true

namespace Expr

mutual

/-- Whether every list and map in the value, down to its elements, is made for it. -/
def isNew : Expr → Bool
  | .scalar _ => true
  | .tuple items => areNew items
  | .copiedTuple _ => true
  | .list _ => true
  | .map scope _ => scope.isNew
  | .copy _ => false
  | .deepCopy _ => true
  | .take _ => false
  | .nest shape depth inner => (shape != .tuple && depth != 0) || inner.isNew
  | .range _ _ => true
termination_by structural expr => expr

def areNew : List Expr → Bool
  | [] => true
  | item :: rest => item.isNew && areNew rest
termination_by structural items => items

end

mutual

/-- Whether every tuple in the expression that is collected is collected from new values. -/
def collectsNew : Expr → Bool
  | .tuple items => areNew items && allCollectNew items
  | .copiedTuple items => allCollectNew items
  | .list items => allCollectNew items
  | .map _ bindings => bindingsCollectNew bindings
  | .nest shape depth inner =>
      (shape != .tuple || depth == 0 || inner.isNew) && inner.collectsNew
  | _ => true
termination_by structural expr => expr

def allCollectNew : List Expr → Bool
  | [] => true
  | item :: rest => item.collectsNew && allCollectNew rest
termination_by structural items => items

def bindingsCollectNew : List (String × Expr) → Bool
  | [] => true
  | binding :: rest => bindingCollectsNew binding && bindingsCollectNew rest
termination_by structural bindings => bindings

def bindingCollectsNew : String × Expr → Bool
  | (_, expr) => expr.collectsNew
termination_by structural binding => binding

end

/-- What is in hand with the values of several expressions. -/
def handAll (items : List Expr) (values : List Value) : List Addr :=
  if areNew items then values.flatMap Value.addresses else values.flatMap Value.handed

/-- What is in hand with a value of the expression. -/
def hand (expr : Expr) (value : Value) : List Addr :=
  if expr.isNew then value.addresses else value.handed

theorem count_handed_le_hand (expr : Expr) (value : Value) (c : Addr) :
    value.handed.count c ≤ (expr.hand value).count c := by
  unfold hand
  split
  · exact Value.count_handed_le c value
  · exact Nat.le_refl _

theorem count_handed_le_handAll (items : List Expr) (values : List Value) (c : Addr) :
    (values.flatMap Value.handed).count c ≤ (handAll items values).count c := by
  unfold handAll
  split
  · exact Value.count_handedAll_le c values
  · exact Nat.le_refl _

theorem count_handAll_cons_le (item : Expr) (items : List Expr) (value : Value)
    (values : List Value) (c : Addr) :
    (handAll (item :: items) (value :: values)).count c ≤
      (item.hand value).count c + (handAll items values).count c := by
  have first := item.count_handed_le_hand value c
  have others := count_handed_le_handAll items values c
  by_cases new : areNew (item :: items) = true
  · have both : item.isNew = true ∧ areNew items = true := by simpa [areNew] using new
    simp [handAll, hand, new, both]
  · simp only [handAll, new, if_false, Bool.false_eq_true, List.flatMap_cons, List.count_append]
      at others ⊢
    omega

end Expr

/-- Parts that are built into a tuple stay what they are, so they have to be new. -/
def Shape.needs (shape : Shape) (part : Value) : List Addr :=
  match shape with
  | .tuple => part.addresses
  | _ => part.handed

open Store

namespace Session

def holding : Holding Session where
  store session := session.context.store
  slots session := session.named.handed
  fixed _ := true

abbrev Spends {α : Type} (work : SessionM α) (given : List Addr) (taken : α → List Addr) : Prop :=
  holding.Spends work given taken

/-- Nothing is in hand before the work or after it. -/
abbrev Idles {α : Type} (work : SessionM α) : Prop :=
  Spends work [] fun _ => []

open Holding (Spends)

/-! ## Variables -/

theorem spends_inContext {α : Type} {work : ContextM α} {given : List Addr}
    {taken : α → List Addr} (spends : Context.Spends work given taken) :
    Session.Spends (inContext work) given taken := by
  intro credit session affords
  obtain ⟨sound, grows, holds⟩ := spends _ session.context (affords_less.mpr affords)
  refine .of_eq (inContext_eq work session) (affords_less.mp sound) ⟨grows.1, rfl⟩ ?_
  intro x answered
  exact affords_less.mp (holds x (Discipline.eq_ok_of_mapError answered))

theorem idles_valueOf (name : String) : Idles (valueOf name) := by
  refine Spends.get.bind fun session => ?_
  cases session.named.get? name with
  | none => exact .throw _
  | some value => exact .idle

theorem idles_scopeOf (name : String) : Idles (scopeOf name) := by
  refine (idles_valueOf name).bind fun value => ?_
  cases value with
  | map a => exact .idle
  | scalar x => exact .throw _
  | tuple items => exact .throw _
  | list a => exact .throw _

/-- A value that is moved into a variable is no longer in hand. -/
theorem spends_bind (name : String) (value : Value) :
    Session.Spends (Session.bind name value) value.handed fun _ => [] := by
  refine .of_eq fun credit session affords => ?_
  have bound : holding.Affords credit
      { session with named := session.named.insert name value } [] := by
    refine Store.Affords.mono affords fun c => ?_
    show ((session.named.insert name value).handed ++ []).count c ≤
      (session.named.handed ++ value.handed).count c
    have placed := Table.count_insert c session.named name value
    simp only [List.count_append, List.count_nil]
    omega
  exact ⟨_, _, rfl, .refl _, rfl, bound, fun _ _ => bound⟩

theorem idles_unbind (name : String) : Idles (unbind name) := by
  refine .of_eq fun credit session affords => ?_
  have bound : holding.Affords credit
      { session with named := session.named.erase name } [] := by
    refine Store.Affords.mono affords fun c => ?_
    show ((session.named.erase name).handed ++ []).count c ≤ (session.named.handed ++ []).count c
    have removed := Table.count_erase c session.named name
    simp only [List.count_append, List.count_nil]
    omega
  exact ⟨_, _, rfl, .refl _, rfl, bound, fun _ _ => bound⟩

/-- A value that is moved out of a variable is in hand. -/
theorem spends_take (name : String) : Session.Spends (eval (.take name)) [] Value.handed := by
  refine .of_eq fun credit session affords => ?_
  cases bound : session.named.get? name with
  | none =>
      exact ⟨_, _, Discipline.bind_of_error (valueOf_of_unbound bound), .refl _, rfl, affords,
        fun _ impossible => by cases impossible⟩
  | some value =>
      have moved : holding.Affords credit
          { session with named := session.named.erase name } value.handed := by
        refine Store.Affords.mono affords fun c => ?_
        show ((session.named.erase name).handed ++ value.handed).count c ≤
          (session.named.handed ++ []).count c
        have removed := Table.count_erase c session.named name
        rw [bound] at removed
        simp only [List.count_append, List.count_nil]
        exact Nat.le_of_eq removed
      refine ⟨_, _, Discipline.bind_of_ok (valueOf_of_bound bound), .refl _, rfl, moved.drop,
        fun other same => ?_⟩
      cases same
      exact moved

/-! ## Expressions -/

/-- What is in hand with a scope: its address, if it is made. -/
def scopeHand (scope : ScopeExpr) (a : Addr) : List Addr :=
  bif scope.isNew then [a] else []

theorem spends_evalScope (scope : ScopeExpr) :
    Session.Spends (evalScope scope) [] (scopeHand scope) := by
  cases scope <;> rw [evalScope]
  case root => exact spends_inContext Context.spends_newRoot
  case inBase => exact spends_inContext Context.spends_newScope
  case base => exact spends_inContext Context.idles_baseScope
  case defaultGlobal => exact spends_inContext Context.idles_defaultGlobalScope
  case global => exact spends_inContext Context.spends_globalScope
  case child name =>
    exact (idles_scopeOf name).bind fun parent => spends_inContext (Context.spends_child parent)
  case within name =>
    exact (idles_scopeOf name).bind fun parent => spends_inContext (Context.spends_newChild parent)

theorem spends_insertBinding (a : Addr) (key : String) (value : Value) :
    Session.Spends (insertBinding a key value) value.handed fun _ => [] := by
  have inserts : Context.Spends (Context.onStore (·.insert a key value)) value.handed fun _ => [] :=
    (Context.spends_onStore fun store => trades_insert store a key value).drop
  exact (spends_inContext inserts).bind fun _ => .idle

theorem spends_insertBindings (a : Addr) (bindings : List (String × Value)) :
    Session.Spends (bindings.forM fun binding => insertBinding a binding.1 binding.2)
      ((bindings.map Prod.snd).flatMap Value.handed) fun _ => [] := by
  induction bindings with
  | nil => exact .idle
  | cons binding rest inductionHypothesis =>
      rw [List.map_cons, List.flatMap_cons]
      have first := (spends_insertBinding a binding.1 binding.2).frame
        ((rest.map Prod.snd).flatMap Value.handed)
      refine (first.enough fun c => ?_).bind fun _ => ?_
      · simp only [List.count_append]
        omega
      · rw [List.append_nil]
        exact inductionHypothesis

/-- The new scope is set aside while the bindings are put into it. -/
theorem spends_rootWith (bindings : List (String × Value)) :
    Session.Spends (rootWith bindings) ((bindings.map Prod.snd).flatMap Value.handed)
      Value.addresses := by
  refine ((spends_evalScope .root).aside _).bind fun a => ?_
  have inserts := (spends_insertBindings a bindings).frame [a]
  refine (inserts.enough fun c => ?_).bind fun _ => .pure fun c => ?_
  · exact Nat.le_of_eq (List.perm_append_comm.count_eq c)
  · simp

theorem spends_build (shape : Shape) (parts : List (String × Value)) :
    Session.Spends (build shape parts) ((parts.map Prod.snd).flatMap shape.needs)
      Value.addresses := by
  cases shape with
  | list =>
      exact (spends_inContext (Context.spends_onStore fun store =>
        trades_newList store (parts.map Prod.snd))).bind fun a => .pure fun c => by simp
  | tuple =>
      refine .pure fun c => ?_
      rw [Value.addresses_tuple]
      exact Nat.le_refl _
  | map => exact spends_rootWith parts

theorem spends_nested (shape : Shape) (depth : Nat) (value : Value) :
    Session.Spends (nested shape depth value) value.addresses Value.addresses := by
  induction depth generalizing value with
  | zero => exact .done rfl
  | succ depth inductionHypothesis =>
      refine ((spends_build shape [("k", value)]).enough fun c => ?_).bind inductionHypothesis
      cases shape <;> simp [Shape.needs, Value.count_handed_le]

/-- Inside a list or map, a value need not be new for the whole to be. -/
theorem spends_nested_succ {shape : Shape} (shared : shape ≠ .tuple) (depth : Nat)
    (value : Value) :
    Session.Spends (nested shape (depth + 1) value) value.handed Value.addresses := by
  refine ((spends_build shape [("k", value)]).enough fun c => ?_).bind (spends_nested shape depth)
  cases shape with
  | tuple => exact absurd rfl shared
  | list => simp [Shape.needs]
  | map => simp [Shape.needs]

theorem rangeParts_need_nothing (shape : Shape) (count : Nat) :
    ((rangeParts count).map Prod.snd).flatMap shape.needs = [] := by
  rw [List.flatMap_eq_nil_iff]
  intro value member
  obtain ⟨part, present, rfl⟩ := List.mem_map.mp member
  obtain ⟨n, _, rfl⟩ := List.mem_map.mp present
  cases shape <;> rfl

theorem spends_nestedHand {shape : Shape} {depth : Nat} {inner : Expr}
    (allowed : (shape != .tuple || depth == 0 || inner.isNew) = true) (value : Value) :
    Session.Spends (nested shape depth value) (inner.hand value)
      (Expr.nest shape depth inner).hand := by
  cases new : inner.isNew with
  | true =>
      rw [Expr.hand, if_pos new]
      refine (spends_nested shape depth value).mono fun outer c => ?_
      simp [Expr.hand, Expr.isNew, new]
  | false =>
      rw [Expr.hand, new, if_neg Bool.false_ne_true]
      cases depth with
      | zero => exact .pure fun c => by simp [Expr.hand, Expr.isNew, new]
      | succ depth =>
          have shared : shape ≠ .tuple := by simpa [new] using allowed
          refine (spends_nested_succ shared depth value).mono fun outer c => ?_
          simp [Expr.hand, Expr.isNew, shared]

mutual

theorem spends_eval : ∀ (expr : Expr), expr.collectsNew = true →
    Session.Spends (eval expr) [] expr.hand
  | .scalar x, _ => .pure fun c => by simp [Expr.hand, Value.handed]
  | .tuple items, collects => by
      obtain ⟨new, others⟩ : Expr.areNew items = true ∧ Expr.allCollectNew items = true := by
        simpa [Expr.collectsNew] using collects
      refine (spends_evalAll items others).bind fun values => .pure fun c => ?_
      simp [Expr.hand, Expr.isNew, Expr.handAll, new]
  | .copiedTuple items, collects => by
      refine (spends_evalAll items (by simpa [Expr.collectsNew] using collects)).drop.bind
        fun values => ?_
      refine (spends_inContext (Context.spends_onStore fun store =>
        trades_deepCopyAll store values)).bind fun copies => .pure fun c => ?_
      simp [Expr.hand, Expr.isNew]
  | .list items, collects => by
      refine ((spends_evalAll items (by simpa [Expr.collectsNew] using collects)).mono
        (Expr.count_handed_le_handAll items)).bind fun values => ?_
      refine (spends_inContext (Context.spends_onStore fun store =>
        trades_newList store values)).bind fun a => .pure fun c => ?_
      simp [Expr.hand, Expr.isNew]
  | .map scope bindings, collects => by
      refine (spends_evalScope scope).bind fun a => ?_
      have inserts := spends_evalBindings a bindings (by simpa [Expr.collectsNew] using collects)
      refine (inserts.beside _).bind fun _ => .pure fun c => ?_
      cases new : scope.isNew <;>
        simp [Expr.hand, Expr.isNew, scopeHand, new, Value.handed]
  | .copy name, _ =>
      (idles_valueOf name).bind fun value =>
        spends_inContext (Context.spends_onStore fun store => trades_copy store value)
  | .deepCopy name, _ =>
      (idles_valueOf name).bind fun value =>
        spends_inContext (Context.spends_onStore fun store => trades_deepCopy store value)
  | .take name, _ => spends_take name
  | .nest shape depth inner, collects => by
      obtain ⟨allowed, others⟩ : (shape != .tuple || depth == 0 || inner.isNew) = true ∧
          inner.collectsNew = true := by
        simpa [Expr.collectsNew] using collects
      exact (spends_eval inner others).bind fun value => spends_nestedHand allowed value
  | .range shape count, _ => by
      have builds := spends_build shape (rangeParts count)
      rw [rangeParts_need_nothing] at builds
      exact builds.mono fun value c => by simp [Expr.hand, Expr.isNew]
termination_by structural expr => expr

theorem spends_evalAll : ∀ (items : List Expr), Expr.allCollectNew items = true →
    Session.Spends (evalAll items) [] (Expr.handAll items)
  | [], _ => .pure fun c => by simp [Expr.handAll]
  | item :: rest, collects => by
      obtain ⟨here, others⟩ : item.collectsNew = true ∧ Expr.allCollectNew rest = true := by
        simpa [Expr.allCollectNew] using collects
      refine (spends_eval item here).bind fun value => ?_
      refine ((spends_evalAll rest others).aside (item.hand value)).bind fun values => ?_
      refine .pure fun c => ?_
      rw [List.count_append]
      exact Expr.count_handAll_cons_le item rest value values c
termination_by structural items => items

theorem spends_evalBindings (a : Addr) : ∀ (bindings : List (String × Expr)),
    Expr.bindingsCollectNew bindings = true → Idles (evalBindings a bindings)
  | [], _ => .idle
  | binding :: rest, collects => by
      obtain ⟨here, others⟩ :
          Expr.bindingCollectsNew binding = true ∧ Expr.bindingsCollectNew rest = true := by
        simpa [Expr.bindingsCollectNew] using collects
      exact (spends_evalBinding a binding here).bind fun _ => spends_evalBindings a rest others
termination_by structural bindings => bindings

theorem spends_evalBinding (a : Addr) : ∀ (binding : String × Expr),
    Expr.bindingCollectsNew binding = true → Idles (evalBinding a binding)
  | (key, expr), collects =>
      ((spends_eval expr collects).mono expr.count_handed_le_hand).bind
        (spends_insertBinding a key)
termination_by structural binding => binding

end

end Session

/-! ## Operands -/

def Operand.collectsNew : Operand → Bool
  | .inPlace _ => true
  | .fresh expr => expr.collectsNew

namespace Session

theorem idles_settle {x : Operand} (collects : x.collectsNew = true) : Idles (settle x) := by
  cases x with
  | inPlace name => exact .idle
  | fresh expr => exact (spends_eval expr collects).drop.bind fun value => .idle

theorem idles_locate (settled : Settled) : Idles settled.locate := by
  cases settled with
  | pending name => exact idles_valueOf name
  | ready value => exact .idle

/-- An operand is looked at where it is, and nothing of it is in hand afterwards. -/
theorem idles_operand {x : Operand} (collects : x.collectsNew = true) : Idles (operand x) :=
  (idles_settle collects).bind idles_locate

theorem idles_operands {x y : Operand} (left : x.collectsNew = true)
    (right : y.collectsNew = true) : Idles (operands x y) := by
  refine (idles_settle left).bind fun first => (idles_settle right).bind fun second => ?_
  exact (idles_locate first).bind fun _ => (idles_locate second).bind fun _ => .idle

end Session

end ScopedValues
