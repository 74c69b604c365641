import MipsCompiler.Tree.Basic

set_option autoImplicit false

/-!
# Returning on all paths

A block returns when one of its statements does: a `return`, or an `if` both of whose blocks return.
A loop never counts, for its body may not run.
-/

namespace MipsCompiler

mutual

def Stmt.returns : Stmt → Bool
  | .ret _ _ => true
  | .branch _ _ thenBlock elseBlock => thenBlock.returns && elseBlock.returns
  | .var _ => false
  | .call _ _ _ => false
  | .assign _ _ _ => false
  | .loop _ _ _ => false

def Block.returns : Block → Bool
  | .mk _ stmts => Stmt.someReturns stmts

def Stmt.someReturns : List Stmt → Bool
  | [] => false
  | s :: ss => s.returns || Stmt.someReturns ss

end

end MipsCompiler
