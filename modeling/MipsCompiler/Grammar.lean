import MipsCompiler.Token.Kind

set_option autoImplicit false

/-!
# First sets

The nonterminals that a parser chooses by, each with the token kinds that can begin it.
-/

namespace MipsCompiler

inductive Nonterminal where
  | literal
  | comparisonOp
  | sumOp
  | productOp
  | expression
  | operand
  | parameter
  | declaration
  | statement
deriving DecidableEq

namespace Nonterminal

def all : List Nonterminal :=
  [literal, comparisonOp, sumOp, productOp, expression, operand, parameter, declaration, statement]

def name : Nonterminal → String
  | literal => "LITERAL"
  | comparisonOp => "OP0"
  | sumOp => "OP1"
  | productOp => "OP2"
  | expression => "EXPRESSION0"
  | operand => "EXPRESSION3"
  | parameter => "PARAMETER"
  | declaration => "DECLARATION"
  | statement => "STATEMENT"

def literalFirst : List TokenKind :=
  [.integer, .float, .trueKw, .falseKw]

def operandFirst : List TokenKind :=
  [.notKw, .openParen, .identifier, .call] ++ literalFirst

def first : Nonterminal → List TokenKind
  | literal => literalFirst
  | comparisonOp => [.greaterEqual, .lesserEqual, .notEqual, .equal, .greaterThan, .lessThan]
  | sumOp => [.add, .sub, .orKw]
  | productOp => [.mul, .div, .andKw]
  | expression => operandFirst
  | operand => operandFirst
  | parameter => [.identifier]
  | declaration => [.varKw, .arrayKw, .funcKw]
  | statement => [.varKw, .call, .letKw, .ifKw, .whileKw, .returnKw]

def starts (nt : Nonterminal) (kind : TokenKind) : Bool :=
  nt.first.contains kind

def ofName? (name : String) : Option Nonterminal :=
  all.find? fun nt => nt.name = name

end Nonterminal

end MipsCompiler
