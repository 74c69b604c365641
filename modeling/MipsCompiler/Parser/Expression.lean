import MipsCompiler.Parser.Basic

set_option autoImplicit false

/-!
# Parsing expressions

```text
expression := sum [ comparison-operator sum ]
sum        := product { sum-operator product }
product    := operand { product-operator operand }
operand    := "not" operand | "(" expression ")" | designator | call | literal
designator := IDENTIFIER { "[" expression "]" }
call       := "::" IDENTIFIER "(" [ expression { "," expression } ] ")"
```

The rules for the tiers, designators and calls take the parser of operands as an argument, so that
`operand` is the one recursion. It counts down the tokens ahead: each operand inside another comes
after at least one of them.
-/

namespace MipsCompiler.Parser

variable {σ : Type} [TokenStream σ]

def binary (operand : Parser σ Expr) (left : Expr) (op : BinaryOp) : Parser σ Expr := do
  let token ← advance
  let right ← operand
  let node ← freshNode token.pos
  return .binary node op left right

def chain (tier : Tier) (operand : Parser σ Expr) : Parser σ Expr := do
  let first ← operand
  extended tier.operator? (binary operand) first

def sum (operand : Parser σ Expr) : Parser σ Expr :=
  chain .sum (chain .product operand)

def comparison (operand : Parser σ Expr) : Parser σ Expr := do
  let left ← sum operand
  match Tier.comparison.operator? (← peek).kind with
  | none => return left
  | some op => binary (sum operand) left op

def subscript (operand : Parser σ Expr) (name : Token) (base : Expr) : Parser σ Expr := do
  let _ ← advance
  let offset ← comparison operand
  let _ ← expect .closeBracket
  let node ← freshNode name.pos
  return .index node base offset

def designator (operand : Parser σ Expr) : Parser σ Expr := do
  let name ← expect .identifier
  let symbol ← resolve name
  let node ← freshNode name.pos
  extended (fun kind => if kind = .openBracket then some () else none)
    (fun base _ => subscript operand name base) (.address node symbol)

def callParts (operand : Parser σ Expr) : Parser σ (Node × SymbolId × List Expr) := do
  let token ← expect .call
  let name ← expect .identifier
  let callee ← resolve name
  let _ ← expect .openParen
  let args ← optionalList .expression (comparison operand)
  let _ ← expect .closeParen
  let node ← freshNode token.pos
  return (node, callee, args)

/-- The value of a literal token. Integers wrap; floats have to be finite. -/
def literalValue (token : Token) : Parser σ Literal :=
  match token.kind with
  | .integer => return .int (Numeral.word token.lexeme)
  | .float =>
    match Single.ofText? token.lexeme with
    | some value => return .float value
    | none => throw (outOfRange token)
  | .trueKw => return .bool true
  | _ => return .bool false

def literal : Parser σ Expr := do
  let token ← advance
  let value ← literalValue token
  let node ← freshNode token.pos
  return .literal node value

def negation (operand : Parser σ Expr) : Parser σ Expr := do
  let token ← advance
  let inner ← operand
  let node ← freshNode token.pos
  return .not node inner

def parenthesized (operand : Parser σ Expr) : Parser σ Expr := do
  let _ ← advance
  let inner ← comparison operand
  let _ ← expect .closeParen
  return inner

def load (operand : Parser σ Expr) : Parser σ Expr := do
  let token ← peek
  let place ← designator operand
  let node ← freshNode token.pos
  return .deref node place

def callExpression (operand : Parser σ Expr) : Parser σ Expr := do
  let (node, callee, args) ← callParts operand
  return .call node callee args

/-- An operand, when at most `n` tokens are ahead. -/
def operand : Nat → Parser σ Expr
  | 0 => refuseFor .operand
  | n + 1 => do
    match (← peek).kind with
    | .notKw => negation (operand n)
    | .openParen => parenthesized (operand n)
    | .identifier => load (operand n)
    | .call => callExpression (operand n)
    | kind => if Nonterminal.literal.starts kind then literal else refuseFor .operand

def expression : Parser σ Expr := do
  comparison (operand (← remaining))

end MipsCompiler.Parser
