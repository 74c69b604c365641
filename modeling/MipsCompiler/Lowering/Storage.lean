import MipsCompiler.Assembly.Program
import MipsCompiler.Lowering.Fault
import MipsCompiler.Tree.Basic

set_option autoImplicit false

/-!
# Storage

Where the value of a symbol is kept. A global has static storage under a label of its own. The
parameters and locals of a function are found by their offset from `$fp`:

```text
  8($fp)    first of three parameters
  4($fp)    second parameter
  0($fp)    last parameter
 -4($fp)    saved $ra
 -8($fp)    saved $fp
-12($fp)    first local
```
-/

namespace MipsCompiler

inductive Location where
  | frame (offset : Int)
  | static (label : String)
deriving DecidableEq

def sizeAt (pos : Position) (ty : Ty) : Except Refusal Nat :=
  match ty.size? with
  | some bytes => .ok bytes
  | none => .error (.unsized pos ty)

mutual

def Stmt.locals : Stmt → List VarDecl
  | .var decl => [decl]
  | .branch _ _ thenBlock elseBlock => thenBlock.locals ++ elseBlock.locals
  | .loop _ _ body => body.locals
  | .call _ _ _ => []
  | .assign _ _ _ => []
  | .ret _ _ => []

def Block.locals : Block → List VarDecl
  | .mk _ stmts => Stmt.localsAll stmts

def Stmt.localsAll : List Stmt → List VarDecl
  | [] => []
  | s :: ss => s.locals ++ Stmt.localsAll ss

end

/-- The frame of a function: the offsets of its parameters and locals. -/
structure StackFrame where
  params : List (SymbolId × Int)
  locals : List (SymbolId × Int)
  localBytes : Nat

namespace StackFrame

/-- Offsets upward from `offset`, for parameters listed from the last to the first. -/
def parameterSlots (symbols : SymbolTable) (pos : Position) :
    Nat → List SymbolId → Except Refusal (List (SymbolId × Int))
  | _, [] => .ok []
  | offset, param :: params => do
    let bytes ← sizeAt pos (symbols.get param).ty
    let slots ← parameterSlots symbols pos (offset + bytes) params
    return (param, (offset : Int)) :: slots

/-- Offsets downward past the saved words and the `size` bytes given out before, and the bytes
given out in the end. -/
def localSlots (symbols : SymbolTable) :
    Nat → List VarDecl → Except Refusal (List (SymbolId × Int) × Nat)
  | size, [] => .ok ([], size)
  | size, decl :: decls => do
    let bytes ← sizeAt decl.node.pos (symbols.get decl.symbol).ty
    let (slots, total) ← localSlots symbols (size + bytes) decls
    return ((decl.symbol, -((savedSize + size + bytes : Nat) : Int)) :: slots, total)

def ofFunction (symbols : SymbolTable) (definition : FuncDef) : Except Refusal StackFrame := do
  let params ← parameterSlots symbols definition.node.pos 0 definition.params.reverse
  let (locals, size) ← localSlots symbols 0 definition.body.locals
  return ⟨params, locals, size⟩

def offset? (frame : StackFrame) (id : SymbolId) : Option Int :=
  (frame.params.lookup id).or (frame.locals.lookup id)

end StackFrame

/-- The storage in reach of a program point: the open frames, innermost first, and the globals. -/
structure Storage where
  frames : List StackFrame
  globals : List (SymbolId × String)

namespace Storage

def empty : Storage := ⟨[], []⟩

def enter (storage : Storage) (frame : StackFrame) : Storage :=
  { storage with frames := frame :: storage.frames }

def exit (storage : Storage) : Storage :=
  { storage with frames := storage.frames.tail }

def locate? (storage : Storage) (id : SymbolId) : Option Location :=
  match storage.frames.findSome? fun frame => frame.offset? id with
  | some offset => some (.frame offset)
  | none => (storage.globals.lookup id).map .static

def addressInstr? (storage : Storage) (target : Reg) (id : SymbolId) : Option Instr :=
  (storage.locate? id).map fun
    | .frame offset => .immediate .addi target .fp offset
    | .static label => .loadAddress target label

structure Reservation where
  line : DataLine
  storage : Storage
  labels : LabelSupply

def reserve (storage : Storage) (symbols : SymbolTable) (labels : LabelSupply) (decl : VarDecl) :
    Except Refusal Reservation := do
  let symbol := symbols.get decl.symbol
  let bytes ← sizeAt decl.node.pos symbol.ty
  let (label, labels) := labels.request ("cruxdata." ++ symbol.name)
  return ⟨.space label bytes,
    { storage with globals := (decl.symbol, label) :: storage.globals }, labels⟩

end Storage

end MipsCompiler
