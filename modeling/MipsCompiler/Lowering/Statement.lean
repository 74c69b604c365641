import MipsCompiler.Lowering.Expression

set_option autoImplicit false

/-!
# Lowering statements

A statement leaves the stack as it found it. A `return` jumps to the end of the function and hands
the value over to the code there.
-/

namespace MipsCompiler

open Lower (perform performIf)

namespace Body

def store (ty : Ty) : Lower Code :=
  if ty.isFloat then do
    let value ← perform (.popSingle .f0)
    let place ← perform (.popWord .t0)
    return value ++ place ++ [.instr (.storeSingle .f0 0 .t0)]
  else do
    let value ← perform (.popWord .t1)
    let place ← perform (.popWord .t0)
    return value ++ place ++ [.instr (.storeWord .t1 0 .t0)]

/-- Goes to `label` if the condition on the stack is false. -/
def skipTo (label : String) : Lower Code := do
  let pop ← perform (.popWord .t0)
  return pop ++ [.instr (.branchEqual .t0 .zero label)]

def leave (body : Body) (ty : Ty) : Lower Code :=
  if ty.isVoid then return [.instr (.jump body.finish)] else perform (.handOver body.finish)

def callAsStatement (body : Body) (callee : SymbolId) (args : List Expr) : Lower Code := do
  let (code, words) ← Expr.lowerAll body args
  let jump ← body.jumpTo callee words
  let discard ← performIf (body.env.symbols.get callee).ty.yieldsWord (.drop 1)
  return code ++ jump ++ discard

end Body

mutual

def Stmt.lower (body : Body) : Stmt → Lower Code
  | .var decl => Lower.balanced decl.node.pos (return [])
  | .call node callee args => Lower.balanced node.pos (body.callAsStatement callee args)
  | .assign node target source => Lower.balanced node.pos do
    let place ← target.lower body
    let value ← source.lower body
    let ty ← body.env.typeOf source.node
    let store ← Body.store ty
    return place ++ value ++ store
  | .branch node condition thenBlock elseBlock => Lower.balanced node.pos do
    let otherwise ← body.requestLabel "else"
    let finish ← body.requestLabel "ifelse.end"
    let test ← condition.lower body
    let skip ← Body.skipTo otherwise
    let taken ← thenBlock.lower body
    let other ← elseBlock.lower body
    return test ++ skip ++ taken ++ [.instr (.jump finish), .label otherwise] ++ other ++
      [.label finish]
  | .loop node condition inner => Lower.balanced node.pos do
    let head ← body.requestLabel "while"
    let finish ← body.requestLabel "while.end"
    let test ← condition.lower body
    let skip ← Body.skipTo finish
    let repeated ← inner.lower body
    return .label head :: test ++ skip ++ repeated ++ [.instr (.jump head), .label finish]
  | .ret node value => Lower.balanced node.pos do
    let code ← value.lower body
    let ty ← body.env.typeOf value.node
    let leave ← body.leave ty
    return code ++ leave

def Block.lower (body : Body) : Block → Lower Code
  | .mk _ stmts => Stmt.lowerAll body stmts

def Stmt.lowerAll (body : Body) : List Stmt → Lower Code
  | [] => return []
  | s :: ss => do
    let code ← s.lower body
    let rest ← Stmt.lowerAll body ss
    return code ++ rest

end

end MipsCompiler
