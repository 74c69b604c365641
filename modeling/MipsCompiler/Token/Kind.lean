set_option autoImplicit false

/-!
# Token kinds

Every kind has a name, used in diagnostics. A keyword or operator also has one fixed lexeme;
identifiers, numbers, unrecognised characters and the end marker have none.
-/

namespace MipsCompiler

inductive TokenKind where
  | andKw
  | orKw
  | notKw
  | letKw
  | varKw
  | arrayKw
  | funcKw
  | ifKw
  | elseKw
  | whileKw
  | trueKw
  | falseKw
  | returnKw
  | openParen
  | closeParen
  | openBrace
  | closeBrace
  | openBracket
  | closeBracket
  | add
  | sub
  | mul
  | div
  | greaterEqual
  | lesserEqual
  | notEqual
  | equal
  | greaterThan
  | lessThan
  | assign
  | comma
  | semicolon
  | colon
  | call
  | identifier
  | integer
  | float
  | error
  | eof
deriving DecidableEq

namespace TokenKind

def keywords : List TokenKind :=
  [andKw, orKw, notKw, letKw, varKw, arrayKw, funcKw, ifKw, elseKw, whileKw, trueKw, falseKw,
    returnKw]

/-- The operators, those of two characters before those of one. -/
def operators : List TokenKind :=
  [greaterEqual, lesserEqual, notEqual, equal, call, openParen, closeParen, openBrace, closeBrace,
    openBracket, closeBracket, add, sub, mul, div, greaterThan, lessThan, assign, comma, semicolon,
    colon]

def all : List TokenKind :=
  keywords ++ operators ++ [identifier, integer, float, error, eof]

def name : TokenKind → String
  | andKw => "AND"
  | orKw => "OR"
  | notKw => "NOT"
  | letKw => "LET"
  | varKw => "VAR"
  | arrayKw => "ARRAY"
  | funcKw => "FUNC"
  | ifKw => "IF"
  | elseKw => "ELSE"
  | whileKw => "WHILE"
  | trueKw => "TRUE"
  | falseKw => "FALSE"
  | returnKw => "RETURN"
  | openParen => "OPEN_PAREN"
  | closeParen => "CLOSE_PAREN"
  | openBrace => "OPEN_BRACE"
  | closeBrace => "CLOSE_BRACE"
  | openBracket => "OPEN_BRACKET"
  | closeBracket => "CLOSE_BRACKET"
  | add => "ADD"
  | sub => "SUB"
  | mul => "MUL"
  | div => "DIV"
  | greaterEqual => "GREATER_EQUAL"
  | lesserEqual => "LESSER_EQUAL"
  | notEqual => "NOT_EQUAL"
  | equal => "EQUAL"
  | greaterThan => "GREATER_THAN"
  | lessThan => "LESS_THAN"
  | assign => "ASSIGN"
  | comma => "COMMA"
  | semicolon => "SEMICOLON"
  | colon => "COLON"
  | call => "CALL"
  | identifier => "IDENTIFIER"
  | integer => "INTEGER"
  | float => "FLOAT"
  | error => "ERROR"
  | eof => "EOF"

def lexeme? : TokenKind → Option String
  | andKw => some "and"
  | orKw => some "or"
  | notKw => some "not"
  | letKw => some "let"
  | varKw => some "var"
  | arrayKw => some "array"
  | funcKw => some "func"
  | ifKw => some "if"
  | elseKw => some "else"
  | whileKw => some "while"
  | trueKw => some "true"
  | falseKw => some "false"
  | returnKw => some "return"
  | openParen => some "("
  | closeParen => some ")"
  | openBrace => some "\x7b"
  | closeBrace => some "\x7d"
  | openBracket => some "["
  | closeBracket => some "]"
  | add => some "+"
  | sub => some "-"
  | mul => some "*"
  | div => some "/"
  | greaterEqual => some ">="
  | lesserEqual => some "<="
  | notEqual => some "!="
  | equal => some "=="
  | greaterThan => some ">"
  | lessThan => some "<"
  | assign => some "="
  | comma => some ","
  | semicolon => some ";"
  | colon => some ":"
  | call => some "::"
  | identifier => none
  | integer => none
  | float => none
  | error => none
  | eof => none

def ofName? (name : String) : Option TokenKind :=
  all.find? fun kind => kind.name = name

def ofKeyword? (word : String) : Option TokenKind :=
  keywords.find? fun kind => kind.lexeme? = some word

def opens (kind : TokenKind) (cs : List Char) : Bool :=
  match kind.lexeme? with
  | some lexeme => lexeme.toList.isPrefixOf cs
  | none => false

def operatorAt? (cs : List Char) : Option TokenKind :=
  operators.find? fun kind => kind.opens cs

end TokenKind

end MipsCompiler
