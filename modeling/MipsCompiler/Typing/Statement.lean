import MipsCompiler.Typing.Expression

set_option autoImplicit false

/-!
# Types of statements

An assignment has the type it stores, a branch or loop the type `void` if its condition is `bool`,
and a return the type of its value if that is what the function promises. Blocks are `void`.
-/

namespace MipsCompiler

/-- What the statements of a body are checked against. There is no promised result when the
function's own declaration is broken. -/
structure Promise where
  symbols : SymbolTable
  name : String
  result : Option Ty

def conditionTy (construct : Construct) : Ty → Ty
  | .bool => .void
  | .error message => .error message
  | ty => (TypeFault.condition construct ty).ty

def Promise.returnTy (promise : Promise) (value : Ty) : Ty :=
  match promise.result with
  | some expected =>
    if value.isError || decide (expected = value) then value
    else (TypeFault.returned promise.name expected value).ty
  | none => value

def Symbol.variableTy (s : Symbol) : Ty :=
  if s.ty.isScalar || s.isError then s.ty else (TypeFault.variableType s.name s.ty).ty

/-- The entry of a declaration. The declaration of an error symbol has been reported before. -/
def TypeEntry.declared (symbol : Symbol) (node : Node) (ty : Ty) : TypeEntry :=
  if symbol.isError then .silent node ty else .computed node ty []

def VarDecl.variableEntry (symbols : SymbolTable) (decl : VarDecl) : TypeEntry :=
  .declared (symbols.get decl.symbol) decl.node (symbols.get decl.symbol).variableTy

mutual

def Stmt.entries (promise : Promise) : Stmt → List TypeEntry
  | .var decl => [decl.variableEntry promise.symbols]
  | .call node callee args => Expr.entries promise.symbols (.call node callee args)
  | .assign node target source =>
    let targetTy := target.ty promise.symbols
    let sourceTy := source.ty promise.symbols
    target.entries promise.symbols ++ source.entries promise.symbols ++
      [.computed node (targetTy.assign sourceTy) [targetTy, sourceTy]]
  | .branch node condition thenBlock elseBlock =>
    let ty := condition.ty promise.symbols
    condition.entries promise.symbols ++ thenBlock.entries promise ++ elseBlock.entries promise ++
      [.computed node (conditionTy .branch ty) [ty]]
  | .loop node condition body =>
    let ty := condition.ty promise.symbols
    condition.entries promise.symbols ++ body.entries promise ++
      [.computed node (conditionTy .loop ty) [ty]]
  | .ret node value =>
    let ty := value.ty promise.symbols
    value.entries promise.symbols ++ [.computed node (promise.returnTy ty) [ty]]

def Block.entries (promise : Promise) : Block → List TypeEntry
  | .mk node stmts => Stmt.entriesAll promise stmts ++ [.silent node .void]

def Stmt.entriesAll (promise : Promise) : List Stmt → List TypeEntry
  | [] => []
  | s :: ss => s.entries promise ++ Stmt.entriesAll promise ss

end

end MipsCompiler
