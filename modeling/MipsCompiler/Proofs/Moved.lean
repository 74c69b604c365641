import MipsCompiler.Proofs.Parts
import MipsCompiler.Token.Basic
import MipsCompiler.Typing.Program

set_option autoImplicit false

/-!
# Moved positions

The tokens, trees, symbols, diagnostics and faults of one text with their positions moved, as they
would be found in another text with the same tokens. Numbers, names and types stay as they are.
-/

namespace MipsCompiler

def Token.move (place : Position → Position) (token : Token) : Token :=
  { token with pos := place token.pos }

def Node.move (place : Position → Position) (node : Node) : Node :=
  { node with pos := place node.pos }

def Symbol.move (place : Position → Position) (symbol : Symbol) : Symbol :=
  { symbol with pos := place symbol.pos }

def Diagnostic.move (place : Position → Position) : Diagnostic → Diagnostic
  | .unexpected pos expected found => .unexpected (place pos) expected found
  | .redeclared pos name scopes => .redeclared (place pos) name scopes
  | .unresolved pos name scopes => .unresolved (place pos) name scopes
  | .mistyped pos message => .mistyped (place pos) message
  | .unlowered pos message => .unlowered (place pos) message

def Refusal.move (place : Position → Position) : Refusal → Refusal
  | .errorNode pos message => .errorNode (place pos) message
  | .untyped pos => .untyped (place pos)
  | .unsized pos ty => .unsized (place pos) ty
  | .invalidOperand pos action ty => .invalidOperand (place pos) action ty
  | .unbound pos name => .unbound (place pos) name

def Fault.move (place : Position → Position) : Fault → Fault
  | .refused refusal => .refused (refusal.move place)
  | .stack fault => .stack fault
  | .unbalanced pos after before => .unbalanced (place pos) after before

def TypeEntry.move (place : Position → Position) (entry : TypeEntry) : TypeEntry :=
  { entry with report := entry.report.map (Diagnostic.move place) }

mutual

def Expr.move (place : Position → Position) : Expr → Expr
  | .literal node value => .literal (node.move place) value
  | .address node symbol => .address (node.move place) symbol
  | .deref node operand => .deref (node.move place) (operand.move place)
  | .index node base offset => .index (node.move place) (base.move place) (offset.move place)
  | .binary node op left right => .binary (node.move place) op (left.move place) (right.move place)
  | .not node operand => .not (node.move place) (operand.move place)
  | .call node callee args => .call (node.move place) callee (Expr.moveAll place args)

def Expr.moveAll (place : Position → Position) : List Expr → List Expr
  | [] => []
  | e :: es => e.move place :: Expr.moveAll place es

end

def VarDecl.move (place : Position → Position) (decl : VarDecl) : VarDecl :=
  { decl with node := decl.node.move place }

mutual

def Stmt.move (place : Position → Position) : Stmt → Stmt
  | .var decl => .var (decl.move place)
  | .call node callee args => .call (node.move place) callee (Expr.moveAll place args)
  | .assign node target source =>
    .assign (node.move place) (target.move place) (source.move place)
  | .branch node condition thenBlock elseBlock =>
    .branch (node.move place) (condition.move place) (thenBlock.move place) (elseBlock.move place)
  | .loop node condition body => .loop (node.move place) (condition.move place) (body.move place)
  | .ret node value => .ret (node.move place) (value.move place)

def Block.move (place : Position → Position) : Block → Block
  | .mk node stmts => .mk (node.move place) (Stmt.moveAll place stmts)

def Stmt.moveAll (place : Position → Position) : List Stmt → List Stmt
  | [] => []
  | s :: ss => s.move place :: Stmt.moveAll place ss

end

def FuncDef.move (place : Position → Position) (definition : FuncDef) : FuncDef :=
  { definition with node := definition.node.move place, body := definition.body.move place }

def Decl.move (place : Position → Position) : Decl → Decl
  | .var decl => .var (decl.move place)
  | .array decl => .array (decl.move place)
  | .func definition => .func (definition.move place)

def Tree.move (place : Position → Position) : Tree → Tree
  | .program node decls => .program (node.move place) (decls.map (Decl.move place))
  | .error node message => .error (node.move place) message

variable (place : Position → Position)

@[simp] theorem Node.move_pos (node : Node) : (node.move place).pos = place node.pos := rfl

@[simp] theorem Symbol.move_name (symbol : Symbol) : (symbol.move place).name = symbol.name := rfl

@[simp] theorem Symbol.move_ty (symbol : Symbol) : (symbol.move place).ty = symbol.ty := rfl

@[simp] theorem VarDecl.move_node (decl : VarDecl) :
    (decl.move place).node = decl.node.move place := rfl

@[simp] theorem VarDecl.move_symbol (decl : VarDecl) : (decl.move place).symbol = decl.symbol := rfl

@[simp] theorem FuncDef.move_symbol (definition : FuncDef) :
    (definition.move place).symbol = definition.symbol := rfl

@[simp] theorem FuncDef.move_body (definition : FuncDef) :
    (definition.move place).body = definition.body.move place := rfl

theorem Expr.moveAll_eq_map (es : List Expr) : Expr.moveAll place es = es.map (Expr.move place) := by
  induction es with
  | nil => rfl
  | cons e es ih => rw [Expr.moveAll, ih, List.map_cons]

theorem Stmt.moveAll_eq_map (ss : List Stmt) : Stmt.moveAll place ss = ss.map (Stmt.move place) := by
  induction ss with
  | nil => rfl
  | cons s ss ih => rw [Stmt.moveAll, ih, List.map_cons]

theorem Expr.node_move (e : Expr) : (e.move place).node = e.node.move place := by
  cases e <;> rfl

/-! ## Positions that stay -/

@[simp] theorem Symbol.move_id (symbol : Symbol) : symbol.move id = symbol := rfl

@[simp] theorem Token.move_id (token : Token) : token.move id = token := rfl

@[simp] theorem Diagnostic.move_id (d : Diagnostic) : d.move id = d := by
  cases d <;> rfl

def Phrase.move : Phrase → Phrase
  | .expr e => .expr (e.move place)
  | .args es => .args (Expr.moveAll place es)

def StmtPhrase.move : StmtPhrase → StmtPhrase
  | .stmt s => .stmt (s.move place)
  | .stmts ss => .stmts (Stmt.moveAll place ss)
  | .block b => .block (b.move place)

theorem Phrase.move_id (phrase : Phrase) : phrase.move id = phrase := by
  induction phrase using Phrase.induct with
  | literal | address | nil => rfl
  | deref node operand ih | not node operand ih | call node callee args ih =>
    simp_all [Phrase.move, Expr.move, Node.move]
  | index node left right ihleft ihright | binary node op left right ihleft ihright =>
    simp_all [Phrase.move, Expr.move, Node.move]
  | cons e es ih ihs => simp_all [Phrase.move, Expr.moveAll]

@[simp] theorem Expr.move_id (e : Expr) : e.move id = e :=
  Phrase.expr.inj (Phrase.move_id (.expr e))

@[simp] theorem Expr.moveAll_id (es : List Expr) : Expr.moveAll id es = es :=
  Phrase.args.inj (Phrase.move_id (.args es))

theorem StmtPhrase.move_id (phrase : StmtPhrase) : phrase.move id = phrase := by
  induction phrase using StmtPhrase.induct with
  | var | nil => rfl
  | call | assign | ret => simp [StmtPhrase.move, Stmt.move, Node.move]
  | branch node condition thenBlock elseBlock ihthen ihelse =>
    simp_all [StmtPhrase.move, Stmt.move, Node.move]
  | loop node condition body ih => simp_all [StmtPhrase.move, Stmt.move, Node.move]
  | block node stmts ih => simp_all [StmtPhrase.move, Block.move, Node.move]
  | cons s ss ih ihs => simp_all [StmtPhrase.move, Stmt.moveAll]

@[simp] theorem Block.move_id (b : Block) : b.move id = b :=
  StmtPhrase.block.inj (StmtPhrase.move_id (.block b))

@[simp] theorem Decl.move_id (decl : Decl) : decl.move id = decl := by
  cases decl with
  | var | array => rfl
  | func definition => simp [Decl.move, FuncDef.move, Node.move]

@[simp] theorem Tree.move_id (tree : Tree) : tree.move id = tree := by
  cases tree with
  | program node decls =>
    have hdecls : decls.map (Decl.move id) = decls := by
      rw [funext Decl.move_id, List.map_id']
    rw [Tree.move, hdecls]
    rfl
  | error => rfl

end MipsCompiler
