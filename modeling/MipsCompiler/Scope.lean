import MipsCompiler.Symbol

set_option autoImplicit false

/-!
# Scopes

The open scopes of a program point, innermost first, with the table of all symbols made so far. The
outermost scope holds the built-in routines and is never closed.

A name declared twice in one scope is bound to an error symbol from then on, and a name that no open
scope binds resolves to a new error symbol each time.
-/

namespace MipsCompiler

/-- One scope: how deep it is nested, its bindings, latest first, and the symbols it lists, in order
of declaration. -/
structure Frame where
  depth : Nat
  bindings : List (String × SymbolId)
  listed : List SymbolId

namespace Frame

def empty (depth : Nat) : Frame := ⟨depth, [], []⟩

def find? (frame : Frame) (name : String) : Option SymbolId :=
  frame.bindings.lookup name

def bind (frame : Frame) (name : String) (id : SymbolId) : Frame :=
  { frame with bindings := (name, id) :: frame.bindings, listed := frame.listed ++ [id] }

/-- Binds a name anew without listing the symbol. -/
def rebind (frame : Frame) (name : String) (id : SymbolId) : Frame :=
  { frame with bindings := (name, id) :: frame.bindings }

end Frame

structure Scope where
  current : Frame
  outer : List Frame
  symbols : SymbolTable

namespace Scope

structure Answer where
  scope : Scope
  symbol : SymbolId
  refusal : Option Diagnostic

def frames (s : Scope) : List Frame :=
  s.current :: s.outer

def depth (s : Scope) : Nat :=
  s.current.depth

def enter (s : Scope) : Scope :=
  { s with current := Frame.empty (s.depth + 1), outer := s.current :: s.outer }

def exit (s : Scope) : Scope :=
  match s.outer with
  | [] => s
  | frame :: frames => { s with current := frame, outer := frames }

def find? (s : Scope) (name : String) : Option SymbolId :=
  s.frames.findSome? fun frame => frame.find? name

def retype (s : Scope) (id : SymbolId) (ty : Ty) : Scope :=
  { s with symbols := s.symbols.retype id ty }

def symbol (s : Scope) (id : SymbolId) : Symbol :=
  s.symbols.get id

/-- The listing of a chain of scopes, innermost first: a line for each listed symbol, indented by
two spaces for each level of its scope, outer scopes first. -/
def listing (symbols : SymbolTable) : List Frame → String
  | [] => ""
  | frame :: outer =>
    listing symbols outer ++
      String.join (frame.listed.map fun id =>
        String.ofList (List.replicate (2 * frame.depth) ' ') ++ (symbols.get id).text ++ "\n")

def dump (s : Scope) : String :=
  listing s.symbols s.frames

def bind (s : Scope) (symbol : Symbol) : Scope :=
  { s with
    current := s.current.bind symbol.name s.symbols.length
    symbols := s.symbols ++ [symbol] }

def declare (s : Scope) (symbol : Symbol) : Answer :=
  match s.current.find? symbol.name with
  | none => ⟨s.bind symbol, s.symbols.length, none⟩
  | some _ =>
    let refusal := Diagnostic.redeclared symbol.pos symbol.name s.dump
    ⟨{ s with
        current := s.current.rebind symbol.name s.symbols.length
        symbols := s.symbols ++ [Symbol.refused symbol.name refusal] },
      s.symbols.length, some refusal⟩

def resolve (s : Scope) (name : String) (pos : Position) : Answer :=
  match s.find? name with
  | some id => ⟨s, id, none⟩
  | none =>
    let refusal := Diagnostic.unresolved pos name s.dump
    ⟨{ s with symbols := s.symbols ++ [Symbol.refused name refusal] },
      s.symbols.length, some refusal⟩

def builtins : List (String × Ty) :=
  [("readInt", .func [] .int), ("readFloat", .func [] .float), ("printBool", .func [.bool] .void),
    ("printInt", .func [.int] .void), ("printFloat", .func [.float] .void),
    ("println", .func [] .void)]

def initial : Scope :=
  builtins.foldl (fun s routine => s.bind ⟨routine.1, routine.2, .builtin, Position.nowhere⟩)
    ⟨Frame.empty 0, [], []⟩

end Scope

end MipsCompiler
