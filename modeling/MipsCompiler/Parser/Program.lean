import MipsCompiler.Parser.Statement
import MipsCompiler.Token.Scanner

set_option autoImplicit false

/-!
# Parsing programs

```text
program     := { declaration } EOF
declaration := "var" IDENTIFIER ":" type ";"
             | "array" IDENTIFIER ":" type extent { extent } ";"
             | "func" IDENTIFIER "(" [ parameter { "," parameter } ] ")" ":" type block
extent      := "[" INTEGER "]"
parameter   := IDENTIFIER ":" type
```
-/

namespace MipsCompiler

/-- What a parse leaves behind. Node numbers run from 0 up to `nodeCount`. -/
structure Parsed where
  tree : Tree
  symbols : SymbolTable
  log : Log
  nodeCount : Nat

namespace Parser

variable {σ : Type} [TokenStream σ]

def extent : Parser σ Nat := do
  let _ ← expect .openBracket
  let literal ← expect .integer
  match Numeral.extent? literal.lexeme with
  | none => throw (outOfRange literal)
  | some value =>
    let _ ← expect .closeBracket
    return value

/-- The first extent is the outermost. -/
def arrayType (base : Ty) (extents : List Nat) : Ty :=
  extents.foldr Ty.array base

def arrayDecl : Parser σ VarDecl := do
  let token ← expect .arrayKw
  let name ← expect .identifier
  let symbol ← declare name .array
  let _ ← expect .colon
  let base ← typeName
  let outermost ← extent
  let inner ← repeated (fun kind => kind = .openBracket) extent
  let _ ← expect .semicolon
  retype symbol (arrayType base (outermost :: inner))
  let node ← freshNode token.pos
  return ⟨node, symbol⟩

def parameter : Parser σ SymbolId := do
  let name ← expect .identifier
  let symbol ← declare name .param
  let _ ← expect .colon
  let ty ← typeName
  retype symbol ty
  return symbol

/-- The type of a function is known before its body, so that it can call itself. -/
def functionDef : Parser σ FuncDef := do
  let token ← expect .funcKw
  let name ← expect .identifier
  let symbol ← declare name .func
  let _ ← expect .openParen
  enterScope
  let params ← optionalList .parameter parameter
  let _ ← expect .closeParen
  let _ ← expect .colon
  let result ← typeName
  let types ← typesOf params
  retype symbol (.func types result)
  let body ← block false (statement (← remaining))
  exitScope
  let node ← freshNode token.pos
  return ⟨node, symbol, params, body⟩

def declaration : Parser σ Decl := do
  match (← peek).kind with
  | .varKw => return .var (← variableDecl)
  | .arrayKw => return .array (← arrayDecl)
  | .funcKw => return .func (← functionDef)
  | _ => refuseFor .declaration

def program : Parser σ Tree := do
  let token ← peek
  let decls ← repeated Nonterminal.declaration.starts declaration
  let _ ← expect .eof
  let node ← freshNode token.pos
  return .program node decls

end Parser

/-- Parses a whole program. When a token is refused, one error node takes the place of the tree. -/
def parse {σ : Type} [TokenStream σ] (stream : σ) : Parsed :=
  match Parser.program.run ⟨stream, Scope.initial, [], 0⟩ with
  | .ok tree s => ⟨tree, s.scope.symbols, s.log, s.nodeCount⟩
  | .error refusal s =>
    ⟨.error ⟨s.nodeCount, refusal.pos⟩ refusal.line, s.scope.symbols, s.log ++ [refusal],
      s.nodeCount + 1⟩

def parseText (source : String) : Parsed :=
  parse (Scanner.ofText source)

def parseTokens (tokens : List Token) : Parsed :=
  parse (TokenQueue.ofTokens tokens)

end MipsCompiler
