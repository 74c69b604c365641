import MipsCompiler.Parser.Expression
import MipsCompiler.Ty.Algebra

set_option autoImplicit false

/-!
# Parsing statements

```text
statement := "var" IDENTIFIER ":" type ";"
           | call ";"
           | "let" designator "=" expression ";"
           | "if" expression block [ "else" block ]
           | "while" expression block
           | "return" expression ";"
block     := "{" { statement } "}"
```
-/

namespace MipsCompiler.Parser

variable {σ : Type} [TokenStream σ]

def typeName : Parser σ Ty := do
  let name ← expect .identifier
  return Ty.ofName name.lexeme

/-- A name is declared as soon as it is read, and gets its type from the annotation. -/
def variableDecl : Parser σ VarDecl := do
  let token ← expect .varKw
  let name ← expect .identifier
  let symbol ← declare name .var
  let _ ← expect .colon
  let ty ← typeName
  retype symbol ty
  let _ ← expect .semicolon
  let node ← freshNode token.pos
  return ⟨node, symbol⟩

def callStatement : Parser σ Stmt := do
  let (node, callee, args) ← callParts (operand (← remaining))
  let _ ← expect .semicolon
  return .call node callee args

def assignment : Parser σ Stmt := do
  let token ← expect .letKw
  let target ← designator (operand (← remaining))
  let _ ← expect .assign
  let source ← expression
  let _ ← expect .semicolon
  let node ← freshNode token.pos
  return .assign node target source

def returnStatement : Parser σ Stmt := do
  let token ← expect .returnKw
  let value ← expression
  let _ ← expect .semicolon
  let node ← freshNode token.pos
  return .ret node value

/-- Statements in braces. The body of a function shares the scope of its parameters; every other
block opens one of its own. -/
def block (ownScope : Bool) (statement : Parser σ Stmt) : Parser σ Block := do
  let token ← expect .openBrace
  if ownScope then enterScope
  let stmts ← repeated Nonterminal.statement.starts statement
  if ownScope then exitScope
  let _ ← expect .closeBrace
  let node ← freshNode token.pos
  return .mk node stmts

def elseBlock (statement : Parser σ Stmt) : Parser σ Block := do
  let token ← peek
  if token.kind = .elseKw then
    let _ ← advance
    block true statement
  else
    let node ← freshNode token.pos
    return .mk node []

def ifStatement (statement : Parser σ Stmt) : Parser σ Stmt := do
  let token ← expect .ifKw
  let condition ← expression
  let taken ← block true statement
  let otherwise ← elseBlock statement
  let node ← freshNode token.pos
  return .branch node condition taken otherwise

def whileStatement (statement : Parser σ Stmt) : Parser σ Stmt := do
  let token ← expect .whileKw
  let condition ← expression
  let body ← block true statement
  let node ← freshNode token.pos
  return .loop node condition body

def statement : Nat → Parser σ Stmt
  | 0 => refuseFor .statement
  | n + 1 => do
    match (← peek).kind with
    | .varKw => return .var (← variableDecl)
    | .call => callStatement
    | .letKw => assignment
    | .ifKw => ifStatement (statement n)
    | .whileKw => whileStatement (statement n)
    | .returnKw => returnStatement
    | _ => refuseFor .statement

end MipsCompiler.Parser
