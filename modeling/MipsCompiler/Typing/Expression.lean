import MipsCompiler.Tree.Basic
import MipsCompiler.Ty.Algebra

set_option autoImplicit false

/-!
# Types of expressions

`Expr.ty` is the type of an expression, and `Expr.entries` lists the type of every node in it, each
node after the nodes below it. An error type is reported at the node where it arises: where none of
the types it was computed from is an error.
-/

namespace MipsCompiler

structure TypeEntry where
  id : NodeId
  ty : Ty
  report : Option Diagnostic

namespace TypeEntry

def silent (node : Node) (ty : Ty) : TypeEntry :=
  ⟨node.id, ty, none⟩

def reportAt (pos : Position) (ty : Ty) (inputs : List Ty) : Option Diagnostic :=
  match ty with
  | .error message => if inputs.any Ty.isError then none else some (.mistyped pos message)
  | _ => none

def computed (node : Node) (ty : Ty) (inputs : List Ty) : TypeEntry :=
  ⟨node.id, ty, reportAt node.pos ty inputs⟩

end TypeEntry

def Literal.ty : Literal → Ty
  | .int _ => .int
  | .float _ => .float
  | .bool _ => .bool

mutual

def Expr.ty (symbols : SymbolTable) : Expr → Ty
  | .literal _ value => value.ty
  | .address _ symbol => (symbols.get symbol).ty.place
  | .deref _ operand => (operand.ty symbols).deref
  | .index _ base offset => (base.ty symbols).index (offset.ty symbols)
  | .binary _ op left right => Ty.binary op.operation (left.ty symbols) (right.ty symbols)
  | .not _ operand => (operand.ty symbols).negate
  | .call _ callee args => (symbols.get callee).ty.call (Expr.tys symbols args)

def Expr.tys (symbols : SymbolTable) : List Expr → List Ty
  | [] => []
  | e :: es => e.ty symbols :: Expr.tys symbols es

end

def Expr.inputs (symbols : SymbolTable) : Expr → List Ty
  | .literal _ _ => []
  | .address _ _ => []
  | .deref _ operand => [operand.ty symbols]
  | .index _ base offset => [base.ty symbols, offset.ty symbols]
  | .binary _ _ left right => [left.ty symbols, right.ty symbols]
  | .not _ operand => [operand.ty symbols]
  | .call _ callee args => (symbols.get callee).ty :: Expr.tys symbols args

/-- The entry of an expression's own node. A name is never reported here, for a broken declaration
has been reported where it stands. -/
def Expr.entry (symbols : SymbolTable) (e : Expr) : TypeEntry :=
  match e with
  | .address node _ => .silent node (e.ty symbols)
  | _ => .computed e.node (e.ty symbols) (e.inputs symbols)

mutual

def Expr.entries (symbols : SymbolTable) : Expr → List TypeEntry
  | .literal node value => [Expr.entry symbols (.literal node value)]
  | .address node symbol => [Expr.entry symbols (.address node symbol)]
  | .deref node operand => operand.entries symbols ++ [Expr.entry symbols (.deref node operand)]
  | .index node base offset =>
    base.entries symbols ++ offset.entries symbols ++
      [Expr.entry symbols (.index node base offset)]
  | .binary node op left right =>
    left.entries symbols ++ right.entries symbols ++
      [Expr.entry symbols (.binary node op left right)]
  | .not node operand => operand.entries symbols ++ [Expr.entry symbols (.not node operand)]
  | .call node callee args =>
    Expr.entriesAll symbols args ++ [Expr.entry symbols (.call node callee args)]

def Expr.entriesAll (symbols : SymbolTable) : List Expr → List TypeEntry
  | [] => []
  | e :: es => e.entries symbols ++ Expr.entriesAll symbols es

end

end MipsCompiler
