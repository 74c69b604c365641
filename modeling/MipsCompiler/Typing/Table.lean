import MipsCompiler.Tree.Basic

set_option autoImplicit false

/-!
# Type tables

The types given to the nodes of a tree. A node gets its type once; a second one is turned away.
-/

namespace MipsCompiler

structure TypeTable where
  entries : List (NodeId × Ty)

namespace TypeTable

def empty : TypeTable := ⟨[]⟩

def get? (table : TypeTable) (id : NodeId) : Option Ty :=
  table.entries.lookup id

def contains (table : TypeTable) (id : NodeId) : Bool :=
  (table.get? id).isSome

def size (table : TypeTable) : Nat :=
  table.entries.length

/-- Enters a type for a node that has none, and tells whether it did. -/
def insert (table : TypeTable) (id : NodeId) (ty : Ty) : Bool × TypeTable :=
  if table.contains id then (false, table) else (true, ⟨(id, ty) :: table.entries⟩)

def ofList (types : List (NodeId × Ty)) : TypeTable :=
  types.foldl (fun table entry => (table.insert entry.1 entry.2).2) empty

end TypeTable

end MipsCompiler
