import ScopedValues.Session.Basic

/-!
Contract: the expressions that make values.

Owns the expressions, their evaluation from left to right, and operands, which name
a variable to be used where it is or give an expression.

Does not own steps.
-/

set_option autoImplicit false

namespace ScopedValues

/-- A scope to make or to find. -/
inductive ScopeExpr where
  | root
  /-- A new scope inside the base scope. -/
  | inBase
  | base
  | defaultGlobal
  /-- A new top-level scope inside the default one. -/
  | global
  /-- A new scope entered from the one that a variable holds. -/
  | child (name : String)
  /-- A new scope placed inside the one that a variable holds. -/
  | within (name : String)
deriving DecidableEq, Repr

/-- The containers that an expression can build from parts. -/
inductive Shape where
  | list
  | tuple
  | map
deriving DecidableEq, Repr

inductive Expr where
  | scalar (x : Scalar)
  /-- The elements become those of the tuple as they are. -/
  | tuple (items : List Expr)
  /-- The elements are deep copies. -/
  | copiedTuple (items : List Expr)
  | list (items : List Expr)
  /-- The scope is made before any binding is evaluated. -/
  | map (scope : ScopeExpr) (bindings : List (String × Expr))
  /-- A copy of a variable. -/
  | copy (name : String)
  | deepCopy (name : String)
  /-- The value of a variable, which is unbound by it. -/
  | take (name : String)
  /-- A value inside `depth` containers of one element. -/
  | nest (shape : Shape) (depth : Nat) (inner : Expr)
  /-- The numbers below `count`. -/
  | range (shape : Shape) (count : Nat)
deriving Repr

namespace Session

def evalScope : ScopeExpr → SessionM Addr
  | .root => inContext (Context.allocating Store.newRoot)
  | .inBase => inContext Context.newScope
  | .base => inContext Context.baseScope
  | .defaultGlobal => inContext Context.defaultGlobalScope
  | .global => inContext Context.globalScope
  | .child name => do
      let parent ← scopeOf name
      inContext (Context.child parent)
  | .within name => do
      let parent ← scopeOf name
      inContext (Context.allocating (·.newChild parent))

def insertBinding (a : Addr) (key : String) (value : Value) : SessionM Unit := do
  let _ ← inContext (Context.onStore (·.insert a key value))

/-- A root scope with the given bindings. -/
def rootWith (bindings : List (String × Value)) : SessionM Value := do
  let a ← evalScope .root
  bindings.forM fun binding => insertBinding a binding.1 binding.2
  return .map a

/-- A container of a shape, made from its parts; the keys are those of a map. -/
def build (shape : Shape) (parts : List (String × Value)) : SessionM Value :=
  match shape with
  | .list => return .list (← inContext (Context.allocating (·.newList (parts.map Prod.snd))))
  | .tuple => return .tuple (parts.map Prod.snd)
  | .map => rootWith parts

def nested (shape : Shape) : Nat → Value → SessionM Value
  | 0, value => return value
  | depth + 1, value => do nested shape depth (← build shape [("k", value)])

/-- The numbers below `count` with their keys. -/
def rangeParts (count : Nat) : List (String × Value) :=
  (List.range count).map fun n => ("k" ++ Nat.repr n, Value.num (Double.ofNat n))

mutual

def eval : Expr → SessionM Value
  | .scalar x => return .scalar x
  | .tuple items => return .tuple (← evalAll items)
  | .copiedTuple items => do
      let values ← evalAll items
      return .tuple (← inContext (Context.onStore (·.deepCopyAll values)))
  | .list items => do
      let values ← evalAll items
      return .list (← inContext (Context.allocating (·.newList values)))
  | .map scope bindings => do
      let a ← evalScope scope
      evalBindings a bindings
      return .map a
  | .copy name => do
      let value ← valueOf name
      inContext (Context.onStore (·.copy value))
  | .deepCopy name => do
      let value ← valueOf name
      inContext (Context.onStore (·.deepCopy value))
  | .take name => do
      let value ← valueOf name
      unbind name
      return value
  | .nest shape depth inner => do nested shape depth (← eval inner)
  | .range shape count => build shape (rangeParts count)
termination_by structural expr => expr

def evalAll : List Expr → SessionM (List Value)
  | [] => return []
  | item :: rest => return (← eval item) :: (← evalAll rest)
termination_by structural items => items

/-- Evaluates and inserts one binding after the other. -/
def evalBindings (a : Addr) : List (String × Expr) → SessionM Unit
  | [] => return
  | binding :: rest => do
      evalBinding a binding
      evalBindings a rest
termination_by structural bindings => bindings

def evalBinding (a : Addr) : String × Expr → SessionM Unit
  | (key, expr) => do insertBinding a key (← eval expr)
termination_by structural binding => binding

end

end Session

/-! ## Operands -/

inductive Operand where
  /-- The variable itself, not a copy of it. -/
  | inPlace (name : String)
  | fresh (expr : Expr)
deriving Repr

namespace Session

/-- An operand whose expression, if it is one, has been evaluated. -/
inductive Settled where
  | pending (name : String)
  | ready (value : Value)

def settle : Operand → SessionM Settled
  | .inPlace name => return .pending name
  | .fresh expr => return .ready (← eval expr)

def Settled.locate : Settled → SessionM Value
  | .pending name => valueOf name
  | .ready value => return value

def operand (x : Operand) : SessionM Value := do
  (← settle x).locate

/-- Two operands: both expressions are evaluated before a variable is looked up. -/
def operands (x y : Operand) : SessionM (Value × Value) := do
  let left ← settle x
  let right ← settle y
  return (← left.locate, ← right.locate)

end Session

end ScopedValues
