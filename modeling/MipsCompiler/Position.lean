import MipsCompiler.Numeral

set_option autoImplicit false

/-!
# Positions in a source text

Lines and columns count from one, and a column counts characters. Only a line feed ends a line. Both
are counted in words, so that behind the last number they go on with zero.

All other counters are of things that are kept: nodes, symbols, open scopes and requests for a label.
They are natural numbers, and there are taken to be fewer than `Word.count` of each.
-/

namespace MipsCompiler

structure Position where
  line : Nat
  column : Nat
deriving DecidableEq

namespace Position

def start : Position := ⟨1, 1⟩

def nowhere : Position := ⟨0, 0⟩

def after (p : Position) (c : Char) : Position :=
  if c = '\n' then ⟨(p.line + 1) % Word.count, 1⟩ else ⟨p.line, (p.column + 1) % Word.count⟩

def afterAll (p : Position) (cs : List Char) : Position :=
  cs.foldl after p

/-- The form used in diagnostics: `4,2`. -/
def text (p : Position) : String :=
  toString p.line ++ "," ++ toString p.column

/-- The form used when a token is described: `4:2`. -/
def colonText (p : Position) : String :=
  toString p.line ++ ":" ++ toString p.column

end Position

end MipsCompiler
