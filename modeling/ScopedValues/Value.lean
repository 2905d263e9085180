import ScopedValues.Number.Text
import ScopedValues.Text.Quoted

/-!
Contract: the values of the language and their kinds.

Owns the eight kinds with their bit layout, scalars, and values, in which a tuple
holds its elements and a list or map is the address of shared storage.

Does not own the storage behind an address.
-/

set_option autoImplicit false

namespace ScopedValues

/-! ## Kinds -/

inductive Tag where
  | none
  | op
  | var
  | num
  | str
  | tuple
  | list
  | map
deriving DecidableEq, Repr, Inhabited

namespace Tag

/-- Set on the kinds whose values consist of elements. -/
def iterableBit : UInt8 := 0x20

/-- Set on maps. -/
def mapBit : UInt8 := 0x40

def bits : Tag → UInt8
  | .none => 0x00
  | .op => 0x01
  | .var => 0x02
  | .num => 0x03
  | .str => 0x04
  | .tuple => 0x21
  | .list => 0x22
  | .map => 0x60

def isIterable (tag : Tag) : Bool :=
  tag.bits &&& iterableBit != 0

def isMap (tag : Tag) : Bool :=
  tag.bits &&& mapBit != 0

/-- The name of a kind in messages. -/
def name : Tag → String
  | .none => "NONE"
  | .op => "OP"
  | .var => "VAR"
  | .num => "NUM"
  | .str => "STR"
  | .tuple => "TUPLE"
  | .list => "LIST"
  | .map => "MAP"

/-- The name of a kind in inspected text. -/
def inspect : Tag → String
  | .none => "None"
  | .op => "Op"
  | .var => "Var"
  | .num => "Num"
  | .str => "Str"
  | .tuple => "Tuple"
  | .list => "List"
  | .map => "Map"

end Tag

/-! ## Scalars -/

inductive Scalar where
  /-- The absent value. -/
  | none
  /-- An operator. -/
  | op (text : String)
  /-- The name of a variable. -/
  | var (name : String)
  | num (x : Double)
  | str (text : String)
deriving DecidableEq, Repr, Inhabited

namespace Scalar

def tag : Scalar → Tag
  | .none => .none
  | .op _ => .op
  | .var _ => .var
  | .num _ => .num
  | .str _ => .str

/-- Equality of scalars; numbers compare numerically. -/
def equal : Scalar → Scalar → Bool
  | .none, .none => true
  | .op x, .op y => x == y
  | .var x, .var y => x == y
  | .num x, .num y => x.equal y
  | .str x, .str y => x == y
  | _, _ => false

/-- Operators and variable names have no truth value. -/
def truth? : Scalar → Option Bool
  | .none => some false
  | .op _ => Option.none
  | .var _ => Option.none
  | .num x => some (!x.isZero)
  | .str text => some (!text.isEmpty)

def number? : Scalar → Option Double
  | .num x => some x
  | _ => Option.none

/-- The text of a string, a variable name or an operator. -/
def text? : Scalar → Option String
  | .op text => some text
  | .var name => some name
  | .str text => some text
  | _ => Option.none

/-- The plain form; a string stands between quotes with nothing escaped. -/
def text : Scalar → String
  | .none => "None"
  | .op text => text
  | .var name => name
  | .num x => x.text
  | .str text => "\"" ++ text ++ "\""

/-- The inspected form names the kind and quotes text. -/
def inspect : Scalar → String
  | .none => "None"
  | .op text => "Op(" ++ Text.quoted text ++ ")"
  | .var name => "Var(" ++ Text.quoted name ++ ")"
  | .num x => "Num(" ++ x.inspect ++ ")"
  | .str text => "Str(" ++ Text.quoted text ++ ")"

end Scalar

/-! ## Values -/

/-- Names one piece of shared storage. -/
abbrev Addr := Nat

inductive Value where
  | scalar (x : Scalar)
  /-- A tuple holds its elements outright. -/
  | tuple (items : List Value)
  /-- A list is shared by everything that holds its address. -/
  | list (storage : Addr)
  /-- A map is shared by everything that holds its address. -/
  | map (storage : Addr)
deriving Repr, Inhabited

namespace Value

/-- The absent value. -/
def none : Value := .scalar .none

def str (text : String) : Value := .scalar (.str text)

def num (x : Double) : Value := .scalar (.num x)

def tag : Value → Tag
  | .scalar x => x.tag
  | .tuple _ => .tuple
  | .list _ => .list
  | .map _ => .map

/-- The elements of a tuple. -/
def asTuple? : Value → Option (List Value)
  | .tuple items => some items
  | _ => Option.none

/-- The storage of a list. -/
def asList? : Value → Option Addr
  | .list a => some a
  | _ => Option.none

/-- The storage of a map. -/
def asMap? : Value → Option Addr
  | .map a => some a
  | _ => Option.none

end Value

end ScopedValues
