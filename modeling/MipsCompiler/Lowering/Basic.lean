import MipsCompiler.Lowering.Storage
import MipsCompiler.Typing.Table

set_option autoImplicit false

/-!
# Lowering steps

Lowering turns a tree into lines of code. It carries the labels requested so far and the depth of the
evaluation stack, and stops at the first fault. Each step returns the lines it stands for, so the
code of a node is put together from the code of its parts.
-/

namespace MipsCompiler

structure LowerState where
  labels : LabelSupply
  depth : Nat

def LowerState.initial : LowerState := ⟨LabelSupply.empty, 0⟩

abbrev Lower (α : Type) := EStateM Fault LowerState α

/-- What lowering looks up: symbols, the types of nodes, and the name of the function that starts
the program. -/
structure Environment where
  symbols : SymbolTable
  types : TypeTable
  entry : String

/-- The function whose body is being lowered. -/
structure Body where
  env : Environment
  storage : Storage
  name : String
  finish : String

namespace Lower

variable {α : Type}

def refuse (refusal : Refusal) : Lower α :=
  throw (.refused refusal)

def ofExcept : Except Refusal α → Lower α
  | .ok a => return a
  | .error refusal => refuse refusal

def perform (op : StackOp) : Lower Code := do
  let s ← get
  match op.depthAfter s.depth with
  | .ok depth =>
    set { s with depth := depth }
    return op.lines
  | .error fault => throw (.stack fault)

def performIf (condition : Bool) (op : StackOp) : Lower Code :=
  if condition then perform op else return []

def requestLabel (name : String) : Lower String :=
  modifyGet fun s =>
    let answer := s.labels.request name
    (answer.1, { s with labels := answer.2 })

/-- Lowers a statement, which has to leave the stack as deep as it was. -/
def balanced (pos : Position) (lower : Lower Code) : Lower Code := do
  let before := (← get).depth
  let code ← lower
  let after := (← get).depth
  if after = before then return code else throw (.unbalanced pos after before)

end Lower

def Environment.typeOf (env : Environment) (node : Node) : Lower Ty :=
  match env.types.get? node.id with
  | some ty => return ty
  | none => Lower.refuse (.untyped node.pos)

def Body.requestLabel (body : Body) (suffix : String) : Lower String :=
  Lower.requestLabel (body.name ++ "." ++ suffix)

end MipsCompiler
