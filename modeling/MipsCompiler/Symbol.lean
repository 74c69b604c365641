import MipsCompiler.Diagnostic
import MipsCompiler.Ty.Basic

set_option autoImplicit false

/-!
# Symbols

Every declaration makes a symbol, and so does every name that is refused: the latter is an error
symbol, whose kind and type both carry the line of the diagnostic. A table lists all symbols of a
program, and a symbol is referred to by its index there.
-/

namespace MipsCompiler

inductive SymbolKind where
  | builtin
  | var
  | array
  | func
  | param
  | error (message : String)
deriving DecidableEq

structure Symbol where
  name : String
  ty : Ty
  kind : SymbolKind
  pos : Position
deriving DecidableEq

abbrev SymbolId := Nat

namespace Symbol

def isError (s : Symbol) : Bool :=
  match s.kind with
  | .error _ => true
  | _ => false

def isBuiltin (s : Symbol) : Bool :=
  match s.kind with
  | .builtin => true
  | _ => false

def text (s : Symbol) : String :=
  "Symbol(" ++ s.name ++ ":" ++ s.ty.text ++ ")"

/-- Stands for a name that was refused. -/
def refused (name : String) (diagnostic : Diagnostic) : Symbol :=
  ⟨name, .error diagnostic.line, .error diagnostic.line, diagnostic.pos⟩

/-- An error symbol keeps its type. -/
def retype (s : Symbol) (ty : Ty) : Symbol :=
  if s.isError then s else { s with ty := ty }

def absent : Symbol :=
  ⟨"", .error "", .error "", Position.nowhere⟩

end Symbol

abbrev SymbolTable := List Symbol

namespace SymbolTable

def get (symbols : SymbolTable) (id : SymbolId) : Symbol :=
  symbols.getD id Symbol.absent

def retype (symbols : SymbolTable) (id : SymbolId) (ty : Ty) : SymbolTable :=
  symbols.modify id fun s => s.retype ty

end SymbolTable

end MipsCompiler
