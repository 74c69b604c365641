import MipsCompiler.Position

set_option autoImplicit false

/-!
# Diagnostics

A diagnostic is a cause with the position it is reported at. `Diagnostic.line` is its one-line
text, `Diagnostic.report` adds the scopes that were open when a name was refused, and `Log.report`
joins the reports of a whole log so that each ends in a line feed.
-/

namespace MipsCompiler

inductive Stage where
  | parse
  | check
  | lower
deriving DecidableEq

inductive Diagnostic where
  | unexpected (pos : Position) (expected found : String)
  | redeclared (pos : Position) (name scopes : String)
  | unresolved (pos : Position) (name scopes : String)
  | mistyped (pos : Position) (message : String)
  | unlowered (pos : Position) (message : String)
deriving DecidableEq

namespace Diagnostic

def pos : Diagnostic → Position
  | unexpected pos _ _ => pos
  | redeclared pos _ _ => pos
  | unresolved pos _ _ => pos
  | mistyped pos _ => pos
  | unlowered pos _ => pos

def stage : Diagnostic → Stage
  | unexpected _ _ _ => .parse
  | redeclared _ _ _ => .parse
  | unresolved _ _ _ => .parse
  | mistyped _ _ => .check
  | unlowered _ _ => .lower

/-- A fatal diagnostic ends the stage that made it. -/
def fatal : Diagnostic → Bool
  | unexpected _ _ _ => true
  | unlowered _ _ => true
  | _ => false

def category : Diagnostic → String
  | unexpected _ _ _ => "SyntaxError"
  | redeclared _ _ _ => "DeclareSymbolError"
  | unresolved _ _ _ => "ResolveSymbolError"
  | mistyped _ _ => "TypeError"
  | unlowered _ _ => "CodeGenError"

def message : Diagnostic → String
  | unexpected _ expected found => "Expected " ++ expected ++ " but got " ++ found ++ "."
  | redeclared _ name _ => name ++ " already exists."
  | unresolved _ name _ => "Could not find " ++ name ++ "."
  | mistyped _ message => message
  | unlowered _ message => message

def line (d : Diagnostic) : String :=
  d.category ++ "(" ++ d.pos.text ++ ")[" ++ d.message ++ "]"

def report (d : Diagnostic) : String :=
  match d with
  | redeclared _ _ scopes => d.line ++ "\n" ++ scopes
  | unresolved _ _ scopes => d.line ++ "\n" ++ scopes
  | _ => d.line

end Diagnostic

abbrev Log := List Diagnostic

namespace Log

def terminated (text : String) : String :=
  if text.toList.getLast? = some '\n' then text else text ++ "\n"

def report (log : Log) : String :=
  String.join (log.map fun d => terminated d.report)

def hasFatal (log : Log) : Bool :=
  log.any Diagnostic.fatal

end Log

end MipsCompiler
