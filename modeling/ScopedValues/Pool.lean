import ScopedValues.Table
import ScopedValues.Tree

/-!
Contract: payloads that several named handles share, with a count of the handles.

Owns the cells of a pool with their counts, the handles on them, the guards that
hold a cell for reading or for writing, and programs over pools of number lists.

Does not own lists and maps. A cell can be read while nobody holds it for writing,
and written while nobody holds it at all. Payloads hold no handles.
-/

set_option autoImplicit false

namespace ScopedValues

/-- A shared payload. The count goes up and down with the handles, one at a time. -/
structure Cell (α : Type) where
  payload : α
  handleCount : Nat
deriving DecidableEq, Repr, Inhabited

/-- A hold on a cell. -/
structure Guard where
  cell : Nat
  exclusive : Bool
deriving DecidableEq, Repr

structure Pool (α : Type) where
  cells : Array (Cell α) := #[]
  /-- The cell of each named handle. -/
  handles : Table Nat := Table.empty
  /-- The holds that last, innermost first. -/
  guards : List Guard := []
deriving Repr, Inhabited

inductive PoolStep where
  | new (items : List Int) (target : String)
  | clone (handle target : String)
  /-- A handle on a new cell with the same items. -/
  | detach (handle target : String)
  | drop (handle : String)
  | count (handle : String)
  | read (handle : String)
  | write (handle : String) (items : List Int)
  | push (handle : String) (item : Int)
  /-- Whether two handles share one cell. -/
  | same (handle other : String)
  | inspect (handle : String)
  /-- Performs steps while the cell is held. -/
  | hold (handle : String) (exclusive : Bool) (steps : List PoolStep)
deriving Repr

inductive PoolAnswer where
  | nothing
  | flag (answer : Bool)
  | count (number : Nat)
  | items (items : List Int)
  | text (text : String)
  | several (answers : List PoolAnswer)
  /-- No handle has this name. -/
  | unbound (name : String)
  /-- The cell is held in a way that excludes the step. -/
  | conflict
deriving Repr, Inhabited

namespace Pool

section Handling

variable {α : Type} [Inhabited α]

/-! ## Cells -/

def payload (pool : Pool α) (cell : Nat) : α :=
  (pool.cells.getD cell default).payload

/-- The number of handles on a cell, as the cell itself counts them. -/
def shareCount (pool : Pool α) (cell : Nat) : Nat :=
  (pool.cells.getD cell default).handleCount

def setPayload (pool : Pool α) (cell : Nat) (payload : α) : Pool α :=
  { pool with cells := pool.cells.setIfInBounds cell ⟨payload, pool.shareCount cell⟩ }

/-- Counts one more handle. -/
def retain (pool : Pool α) (cell : Nat) : Pool α :=
  { pool with
    cells := pool.cells.setIfInBounds cell ⟨pool.payload cell, pool.shareCount cell + 1⟩ }

/-- Counts one handle less. -/
def release (pool : Pool α) (cell : Nat) : Pool α :=
  { pool with
    cells := pool.cells.setIfInBounds cell ⟨pool.payload cell, pool.shareCount cell - 1⟩ }

/-! ## Handles -/

/-- Removes a handle, if it is there. -/
def drop (pool : Pool α) (name : String) : Pool α :=
  match pool.handles.get? name with
  | some cell => { pool with handles := pool.handles.erase name }.release cell
  | none => pool

/-- Gives a handle that has been counted a name; a handle of that name is removed. -/
def store (pool : Pool α) (name : String) (cell : Nat) : Pool α :=
  let rest := pool.drop name
  { rest with handles := rest.handles.insert name cell }

/-- A new cell with one handle. -/
def create (pool : Pool α) (name : String) (payload : α) : Pool α :=
  { pool with cells := pool.cells.push ⟨payload, 1⟩ }.store name pool.cells.size

/-- One more handle on a cell. -/
def clone (pool : Pool α) (name : String) (cell : Nat) : Pool α :=
  (pool.retain cell).store name cell

/-! ## Guards -/

def readable (pool : Pool α) (cell : Nat) : Bool :=
  pool.guards.all fun guard => guard.cell != cell || !guard.exclusive

def writable (pool : Pool α) (cell : Nat) : Bool :=
  pool.guards.all fun guard => guard.cell != cell

/-- Holds a cell through a handle of its own. -/
def lock (pool : Pool α) (guard : Guard) : Pool α :=
  { pool.retain guard.cell with guards := guard :: pool.guards }

/-- Ends the innermost hold, which was on `cell`. -/
def unlock (pool : Pool α) (cell : Nat) : Pool α :=
  { pool.release cell with guards := pool.guards.tail }

end Handling

/-! ## Programs -/

/-- The inspected form of a handle. -/
def inspect (pool : Pool (List Int)) (cell : Nat) : String :=
  "Shared \x7b handles: " ++ Nat.repr (pool.shareCount cell) ++ ", payload: [" ++
    Tree.commaSeparated ((pool.payload cell).map Int.repr) ++ "] \x7d"

/-- Work on a pool of number lists. -/
abbrev PoolM := StateM (Pool (List Int))

/-- Work on the cell of a handle. -/
def onHandle (name : String) (work : Nat → PoolM PoolAnswer) : PoolM PoolAnswer := do
  match (← get).handles.get? name with
  | some cell => work cell
  | none => return .unbound name

/-- Work on the cell of a handle, which must be open to it. -/
def onOpenHandle (isOpen : Pool (List Int) → Nat → Bool) (name : String)
    (work : Nat → PoolM PoolAnswer) : PoolM PoolAnswer :=
  onHandle name fun cell => do
    if isOpen (← get) cell then work cell else return .conflict

def reading (name : String) (work : Nat → PoolM PoolAnswer) : PoolM PoolAnswer :=
  onOpenHandle readable name work

def writing (name : String) (work : Nat → PoolM PoolAnswer) : PoolM PoolAnswer :=
  onOpenHandle writable name work

mutual

def perform : PoolStep → PoolM PoolAnswer
  | .new items target => do
      modify (·.create target items)
      return .nothing
  | .clone handle target => onHandle handle fun cell => do
      modify (·.clone target cell)
      return .nothing
  | .detach handle target => reading handle fun cell => do
      modify fun pool => pool.create target (pool.payload cell)
      return .nothing
  | .drop handle => do
      let there := (← get).handles.contains handle
      modify (·.drop handle)
      return .flag there
  | .count handle => onHandle handle fun cell => return .count ((← get).shareCount cell)
  | .read handle => reading handle fun cell => return .items ((← get).payload cell)
  | .write handle items => writing handle fun cell => do
      modify (·.setPayload cell items)
      return .nothing
  | .push handle item => writing handle fun cell => do
      modify fun pool => pool.setPayload cell (pool.payload cell ++ [item])
      return .count ((← get).payload cell).length
  | .same handle other => onHandle handle fun left => onHandle other fun right =>
      return .flag (left == right)
  | .inspect handle => reading handle fun cell => return .text ((← get).inspect cell)
  | .hold handle exclusive steps =>
      (if exclusive then writing else reading) handle fun cell => do
        modify (·.lock { cell, exclusive })
        let answers ← performAll steps
        modify (·.unlock cell)
        return .several answers
termination_by structural step => step

/-- Performs steps one after another; none of them ends the program. -/
def performAll : List PoolStep → PoolM (List PoolAnswer)
  | [] => return []
  | step :: rest => return (← perform step) :: (← performAll rest)
termination_by structural steps => steps

end

/-- What a program over an empty pool answers, step by step. -/
def answers (steps : List PoolStep) : List PoolAnswer :=
  (performAll steps {}).1

end Pool

end ScopedValues
