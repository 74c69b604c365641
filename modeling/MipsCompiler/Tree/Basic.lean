import MipsCompiler.Operator
import MipsCompiler.Single.Basic
import MipsCompiler.Symbol

set_option autoImplicit false

/-!
# Syntax trees

Every node has a number of its own and the position it is reported at. Names are resolved: a tree
refers to symbols by their index. An expression that names a place is an address; using its value
takes a `deref` around it.
-/

namespace MipsCompiler

abbrev NodeId := Nat

structure Node where
  id : NodeId
  pos : Position
deriving DecidableEq

inductive Literal where
  | int (value : Word)
  | float (value : Single)
  | bool (value : Bool)
deriving DecidableEq

inductive Expr where
  | literal (node : Node) (value : Literal)
  | address (node : Node) (symbol : SymbolId)
  | deref (node : Node) (operand : Expr)
  | index (node : Node) (base offset : Expr)
  | binary (node : Node) (op : BinaryOp) (left right : Expr)
  | not (node : Node) (operand : Expr)
  | call (node : Node) (callee : SymbolId) (args : List Expr)

structure VarDecl where
  node : Node
  symbol : SymbolId
deriving DecidableEq

mutual

inductive Stmt where
  | var (decl : VarDecl)
  | call (node : Node) (callee : SymbolId) (args : List Expr)
  | assign (node : Node) (target source : Expr)
  | branch (node : Node) (condition : Expr) (thenBlock elseBlock : Block)
  | loop (node : Node) (condition : Expr) (body : Block)
  | ret (node : Node) (value : Expr)

inductive Block where
  | mk (node : Node) (stmts : List Stmt)

end

structure FuncDef where
  node : Node
  symbol : SymbolId
  params : List SymbolId
  body : Block

inductive Decl where
  | var (decl : VarDecl)
  | array (decl : VarDecl)
  | func (definition : FuncDef)

/-- A whole program, or the one node that stands for a text that could not be parsed. -/
inductive Tree where
  | program (node : Node) (decls : List Decl)
  | error (node : Node) (message : String)

namespace Expr

def node : Expr → Node
  | literal node _ => node
  | address node _ => node
  | deref node _ => node
  | index node _ _ => node
  | binary node _ _ _ => node
  | not node _ => node
  | call node _ _ => node

end Expr

namespace Block

def node : Block → Node
  | mk node _ => node

def stmts : Block → List Stmt
  | mk _ stmts => stmts

end Block

namespace Stmt

def node : Stmt → Node
  | var decl => decl.node
  | call node _ _ => node
  | assign node _ _ => node
  | branch node _ _ _ => node
  | loop node _ _ => node
  | ret node _ => node

end Stmt

namespace Decl

def node : Decl → Node
  | var decl => decl.node
  | array decl => decl.node
  | func definition => definition.node

end Decl

namespace Tree

def node : Tree → Node
  | program node _ => node
  | error node _ => node

def decls : Tree → List Decl
  | program _ decls => decls
  | error _ _ => []

def isError : Tree → Bool
  | program _ _ => false
  | error _ _ => true

end Tree

end MipsCompiler
