import MipsCompiler.Tree.Basic

set_option autoImplicit false

/-!
# The nodes of a tree

`Tree.nodeIds` lists the numbers of all nodes, a parent before its children and the children in
their order in the text.
-/

namespace MipsCompiler

mutual

def Expr.nodeIds : Expr → List NodeId
  | .literal node _ => [node.id]
  | .address node _ => [node.id]
  | .deref node operand => node.id :: operand.nodeIds
  | .index node base offset => node.id :: (base.nodeIds ++ offset.nodeIds)
  | .binary node _ left right => node.id :: (left.nodeIds ++ right.nodeIds)
  | .not node operand => node.id :: operand.nodeIds
  | .call node _ args => node.id :: Expr.nodeIdsAll args

def Expr.nodeIdsAll : List Expr → List NodeId
  | [] => []
  | e :: es => e.nodeIds ++ Expr.nodeIdsAll es

end

mutual

def Stmt.nodeIds : Stmt → List NodeId
  | .var decl => [decl.node.id]
  | .call node _ args => node.id :: Expr.nodeIdsAll args
  | .assign node target source => node.id :: (target.nodeIds ++ source.nodeIds)
  | .branch node condition thenBlock elseBlock =>
    node.id :: (condition.nodeIds ++ thenBlock.nodeIds ++ elseBlock.nodeIds)
  | .loop node condition body => node.id :: (condition.nodeIds ++ body.nodeIds)
  | .ret node value => node.id :: value.nodeIds

def Block.nodeIds : Block → List NodeId
  | .mk node stmts => node.id :: Stmt.nodeIdsAll stmts

def Stmt.nodeIdsAll : List Stmt → List NodeId
  | [] => []
  | s :: ss => s.nodeIds ++ Stmt.nodeIdsAll ss

end

def Decl.nodeIds : Decl → List NodeId
  | .var decl => [decl.node.id]
  | .array decl => [decl.node.id]
  | .func definition => definition.node.id :: definition.body.nodeIds

def Tree.nodeIds : Tree → List NodeId
  | .program node decls => node.id :: decls.flatMap Decl.nodeIds
  | .error node _ => [node.id]

end MipsCompiler
