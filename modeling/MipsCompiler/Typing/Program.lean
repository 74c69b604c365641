import MipsCompiler.Ty.Size
import MipsCompiler.Typing.Returns
import MipsCompiler.Typing.Statement
import MipsCompiler.Typing.Table

set_option autoImplicit false

/-!
# Types of programs

Variables are scalars and arrays have scalar elements and a size. The function that starts the
program takes nothing and returns nothing; any other has no `void` parameter, and if it returns a
value it does so on all paths. `check` gives every node of a tree its type, in the order of the
node numbers, and logs the faults in that order.
-/

namespace MipsCompiler

def Symbol.arrayTy (s : Symbol) : Ty :=
  if s.isError then s.ty
  else if !s.ty.innermost.isScalar then (TypeFault.arrayBase s.name s.ty.innermost).ty
  else if s.ty.size?.isNone then (TypeFault.arraySize s.name s.ty).ty
  else s.ty

def VarDecl.arrayEntry (symbols : SymbolTable) (decl : VarDecl) : TypeEntry :=
  .declared (symbols.get decl.symbol) decl.node (symbols.get decl.symbol).arrayTy

def parameterFault (name : String) : Nat → List Ty → Option TypeFault
  | _, [] => none
  | slot, .void :: _ => some (.voidParameter name slot)
  | slot, .error message :: _ => some (.brokenParameter name slot message)
  | slot, _ :: params => parameterFault name (slot + 1) params

def signatureFault (entry name : String) (params : List Ty) (result : Ty) : Option TypeFault :=
  if name = entry then
    if params.isEmpty && result.isVoid then none else some (.entrySignature name)
  else
    match parameterFault name 0 params with
    | some fault => some fault
    | none => if result.isError then some (.brokenResult name result) else none

/-- The type of a function by its signature alone. -/
def Symbol.signatureTy (entry : String) (s : Symbol) : Ty :=
  match s.ty with
  | .func params result =>
    match signatureFault entry s.name params result with
    | some fault => fault.ty
    | none => s.ty
  | ty => ty

def Symbol.promisedResult (s : Symbol) : Option Ty :=
  match s.ty with
  | .func _ result => if result.isError then none else some result
  | _ => none

def Symbol.owesValue (s : Symbol) : Bool :=
  match s.promisedResult with
  | some result => !result.isVoid
  | none => false

namespace FuncDef

def ty (symbols : SymbolTable) (entry : String) (definition : FuncDef) : Ty :=
  let symbol := symbols.get definition.symbol
  let signature := symbol.signatureTy entry
  if !signature.isError && symbol.owesValue && !definition.body.returns then
    (TypeFault.missingReturn symbol.name).ty
  else signature

def promise (symbols : SymbolTable) (definition : FuncDef) : Promise :=
  let symbol := symbols.get definition.symbol
  ⟨symbols, symbol.name, symbol.promisedResult⟩

def entries (symbols : SymbolTable) (entry : String) (definition : FuncDef) : List TypeEntry :=
  definition.body.entries (definition.promise symbols) ++
    [.declared (symbols.get definition.symbol) definition.node (definition.ty symbols entry)]

end FuncDef

def Decl.entries (symbols : SymbolTable) (entry : String) : Decl → List TypeEntry
  | .var decl => [decl.variableEntry symbols]
  | .array decl => [decl.arrayEntry symbols]
  | .func definition => definition.entries symbols entry

def Tree.entries (symbols : SymbolTable) (entry : String) : Tree → List TypeEntry
  | .program node decls => decls.flatMap (Decl.entries symbols entry) ++ [.silent node .void]
  | .error node message => [.computed node (.error message) []]

structure Checked where
  types : TypeTable
  log : Log

def check (symbols : SymbolTable) (entry : String) (tree : Tree) : Checked :=
  let entries := tree.entries symbols entry
  ⟨TypeTable.ofList (entries.map fun e => (e.id, e.ty)), entries.filterMap TypeEntry.report⟩

end MipsCompiler
