import ScopedValues.Value

/-!
Contract: values spelled out in full, with no addresses left in them.

Owns the tree of a value, in which every map carries a note of the caller's
choice, and the plain and inspected forms of a tree.

Does not own how a tree is read off storage.
-/

set_option autoImplicit false

namespace ScopedValues

inductive Tree (ν : Type) where
  | scalar (x : Scalar)
  | tuple (items : List (Tree ν))
  | list (items : List (Tree ν))
  /-- The bindings of a map in declaration order, with a note about the map. -/
  | map (note : ν) (entries : List (String × Tree ν))
deriving Repr

namespace Tree

variable {ν : Type}

def commaSeparated (texts : List String) : String :=
  String.intercalate ", " texts

/-! ## Plain form -/

/-- A binding in the plain form of a map; the key is quoted with nothing escaped. -/
def bindingText (binding : String × String) : String :=
  "\"" ++ binding.1 ++ "\": " ++ binding.2

/-- Bindings by the order of their keys, which is that of their code points. -/
def byKey (bindings : List (String × String)) : List (String × String) :=
  bindings.mergeSort fun earlier later => decide (earlier.1 ≤ later.1)

/-- The plain form of a map shows its bindings sorted, whatever their declaration order. -/
def bindingsText (bindings : List (String × String)) : String :=
  if bindings.isEmpty then "\x7b\x7d"
  else "\x7b " ++ commaSeparated ((byKey bindings).map bindingText) ++ " \x7d"

mutual

/-- The plain form. -/
def text : Tree ν → String
  | .scalar x => x.text
  | .tuple items => "(" ++ commaSeparated (texts items) ++ ")"
  | .list items => "[" ++ commaSeparated (texts items) ++ "]"
  | .map _ entries => bindingsText (entryTexts entries)
termination_by structural tree => tree

def texts : List (Tree ν) → List String
  | [] => []
  | item :: rest => text item :: texts rest
termination_by structural items => items

def entryTexts : List (String × Tree ν) → List (String × String)
  | [] => []
  | entry :: rest => entryText entry :: entryTexts rest
termination_by structural entries => entries

def entryText : String × Tree ν → String × String
  | (key, tree) => (key, text tree)
termination_by structural entry => entry

end

/-! ## Inspected form -/

/-- A binding in the inspected form of a map. -/
def bindingInspected (binding : String × String) : String :=
  Text.quoted binding.1 ++ ": " ++ binding.2

/-- Bindings between braces, in declaration order. -/
def bindingsInspected (bindings : List (String × String)) : String :=
  "\x7b" ++ commaSeparated (bindings.map bindingInspected) ++ "\x7d"

/-- The fields of a map's inspected form, without the name of the kind. -/
def scopeInspected (enclosed : Bool) (bindings : List (String × String)) : String :=
  "TokenMap \x7b map: " ++ bindingsInspected bindings ++
    ", has_parent: " ++ (if enclosed then "true" else "false") ++ " \x7d"

mutual

/--
The inspected form, in which a map's note tells whether it has a parent. A list has
none, because it would show how many handles are live.
-/
def inspect? : Tree Bool → Option String
  | .scalar x => some x.inspect
  | .tuple items => do
      let parts ← inspectAll? items
      some ("Tuple(Tuple \x7b items: [" ++ commaSeparated parts ++ "] \x7d)")
  | .list _ => none
  | .map enclosed entries => do
      let bindings ← inspectEntries? entries
      some ("Map(" ++ scopeInspected enclosed bindings ++ ")")
termination_by structural tree => tree

def inspectAll? : List (Tree Bool) → Option (List String)
  | [] => some []
  | item :: rest => do
      let part ← inspect? item
      let parts ← inspectAll? rest
      some (part :: parts)
termination_by structural items => items

def inspectEntries? : List (String × Tree Bool) → Option (List (String × String))
  | [] => some []
  | entry :: rest => do
      let binding ← inspectEntry? entry
      let bindings ← inspectEntries? rest
      some (binding :: bindings)
termination_by structural entries => entries

def inspectEntry? : String × Tree Bool → Option (String × String)
  | (key, tree) => do
      let part ← inspect? tree
      some (key, part)
termination_by structural entry => entry

end

end Tree

end ScopedValues
