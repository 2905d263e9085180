/-!
Contract: tables from text keys to entries, in the order in which the keys were
declared.

Owns reading, overwriting in place, declaring at the end, and removal that keeps
the order of the rest.

Does not own what the entries mean. A key stands in a table at most once as long
as the table is built by these operations from the empty one.
-/

set_option autoImplicit false

namespace ScopedValues

structure Table (α : Type) where
  entries : List (String × α)
deriving Repr, DecidableEq

namespace Table

variable {α : Type}

def empty : Table α := ⟨[]⟩

instance : Inhabited (Table α) := ⟨empty⟩

def size (table : Table α) : Nat :=
  table.entries.length

/-- The keys in declaration order. -/
def keys (table : Table α) : List String :=
  table.entries.map Prod.fst

def get? (table : Table α) (key : String) : Option α :=
  (table.entries.find? fun entry => entry.1 == key).map Prod.snd

def contains (table : Table α) (key : String) : Bool :=
  table.entries.any fun entry => entry.1 == key

/-- Overwrites the entry of `key` where it stands, or declares it at the end. -/
def insert (table : Table α) (key : String) (entry : α) : Table α :=
  ⟨place table.entries⟩
where
  place : List (String × α) → List (String × α)
    | [] => [(key, entry)]
    | head :: rest => if head.1 == key then (key, entry) :: rest else head :: place rest

/-- Declares `key` at the end with `entry`, unless it is declared already. -/
def declare (table : Table α) (key : String) (entry : α) : Table α :=
  if table.contains key then table else ⟨table.entries ++ [(key, entry)]⟩

def erase (table : Table α) (key : String) : Table α :=
  ⟨table.entries.eraseP fun entry => entry.1 == key⟩

end Table

end ScopedValues
