import MipsCompiler.Grammar
import MipsCompiler.Scope
import MipsCompiler.Token.Stream
import MipsCompiler.Tree.Basic

set_option autoImplicit false

/-!
# Parsing steps

A parser reads tokens from a stream, declares and resolves names on the way, and numbers the nodes
it makes. Names that are refused go to the log and parsing continues; the first token that does not
fit ends it, and what was declared and numbered up to there is kept.
-/

namespace MipsCompiler

structure ParseState (σ : Type) where
  stream : σ
  scope : Scope
  log : Log
  nodeCount : Nat

abbrev Parser (σ α : Type) := EStateM Diagnostic (ParseState σ) α

namespace Parser

variable {σ : Type} [TokenStream σ] {α β : Type}

def peek : Parser σ Token := do
  return TokenStream.peek (← get).stream

/-- A bound on the tokens that are still ahead. -/
def remaining : Parser σ Nat := do
  return TokenStream.remaining (← get).stream

def advance : Parser σ Token :=
  modifyGet fun s =>
    (TokenStream.peek s.stream, { s with stream := TokenStream.advance s.stream })

def refuse (expected : String) : Parser σ α := do
  let token ← peek
  throw (.unexpected token.pos expected token.kind.name)

def refuseFor (nt : Nonterminal) : Parser σ α :=
  refuse ("a token from " ++ nt.name)

def outOfRange (literal : Token) : Diagnostic :=
  .unexpected literal.pos (literal.kind.name ++ " within 32 bits") literal.lexeme

def expect (kind : TokenKind) : Parser σ Token := do
  if (← peek).kind = kind then advance else refuse kind.name

def freshNode (pos : Position) : Parser σ Node :=
  modifyGet fun s => (⟨s.nodeCount, pos⟩, { s with nodeCount := s.nodeCount + 1 })

def settle (s : ParseState σ) (answer : Scope.Answer) : SymbolId × ParseState σ :=
  (answer.symbol, { s with scope := answer.scope, log := s.log ++ answer.refusal.toList })

/-- Declares a name in the current scope. Its type becomes known later. -/
def declare (name : Token) (kind : SymbolKind) : Parser σ SymbolId :=
  modifyGet fun s => settle s (s.scope.declare ⟨name.lexeme, .void, kind, name.pos⟩)

def resolve (name : Token) : Parser σ SymbolId :=
  modifyGet fun s => settle s (s.scope.resolve name.lexeme name.pos)

def retype (id : SymbolId) (ty : Ty) : Parser σ Unit :=
  modify fun s => { s with scope := s.scope.retype id ty }

def typesOf (ids : List SymbolId) : Parser σ (List Ty) := do
  let scope := (← get).scope
  return ids.map fun id => (scope.symbol id).ty

def enterScope : Parser σ Unit :=
  modify fun s => { s with scope := s.scope.enter }

def exitScope : Parser σ Unit :=
  modify fun s => { s with scope := s.scope.exit }

/-- Items for as long as the next token passes the test, `n` at most. -/
def many (test : TokenKind → Bool) (item : Parser σ α) : Nat → Parser σ (List α)
  | 0 => return []
  | n + 1 => do
    if test (← peek).kind then
      let x ← item
      let xs ← many test item n
      return x :: xs
    else return []

def repeated (test : TokenKind → Bool) (item : Parser σ α) : Parser σ (List α) := do
  many test item (← remaining)

def extend (choose : TokenKind → Option β) (step : α → β → Parser σ α) : Nat → α → Parser σ α
  | 0, a => return a
  | n + 1, a => do
    match choose (← peek).kind with
    | none => return a
    | some b => extend choose step n (← step a b)

def extended (choose : TokenKind → Option β) (step : α → β → Parser σ α) (a : α) :
    Parser σ α := do
  extend choose step (← remaining) a

def commaSeparated (item : Parser σ α) : Parser σ (List α) := do
  let x ← item
  let xs ← repeated (fun kind => kind = .comma) do
    let _ ← advance
    item
  return x :: xs

def optionalList (nt : Nonterminal) (item : Parser σ α) : Parser σ (List α) := do
  if nt.starts (← peek).kind then commaSeparated item else return []

end Parser

end MipsCompiler
