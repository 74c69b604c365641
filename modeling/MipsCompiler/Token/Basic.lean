import MipsCompiler.Position
import MipsCompiler.Token.Kind
import MipsCompiler.Text.Quoted

set_option autoImplicit false

/-!
# Tokens
-/

namespace MipsCompiler

structure Token where
  kind : TokenKind
  lexeme : String
  pos : Position
deriving DecidableEq

namespace Token

def endMarker (pos : Position) : Token :=
  ⟨.eof, "", pos⟩

/-- A token on one line, with its lexeme quoted: `IDENTIFIER("x" @ 1:5)`. -/
def describe (t : Token) : String :=
  t.kind.name ++ "(" ++ Text.quoted t.lexeme ++ " @ " ++ t.pos.colonText ++ ")"

def throughEnd : List Token → List Token
  | [] => []
  | t :: ts => if t.kind = .eof then [t] else t :: throughEnd ts

end Token

end MipsCompiler
