import MipsCompiler.Token.Basic

set_option autoImplicit false

/-!
# Token streams

A stream shows its next token and steps past it, and never runs out: past the last token it shows
end markers. `remaining` bounds the steps that can still meet another token, which is what lets a
parser stop.
-/

namespace MipsCompiler

class TokenStream (σ : Type) where
  peek : σ → Token
  advance : σ → σ
  remaining : σ → Nat
  remaining_advance : ∀ s, (peek s).kind ≠ .eof → remaining (advance s) < remaining s

namespace TokenStream

def pull {σ : Type} [TokenStream σ] : Nat → σ → List Token
  | 0, _ => []
  | n + 1, s => peek s :: pull n (advance s)

end TokenStream

/-- A list of tokens, read in order and then followed by end markers at the position of its last
token. -/
structure TokenQueue where
  tokens : List Token
  finish : Position

namespace TokenQueue

def ofTokens (tokens : List Token) : TokenQueue :=
  ⟨tokens, (tokens.getLast?.map Token.pos).getD Position.start⟩

def peek (b : TokenQueue) : Token :=
  b.tokens.head?.getD (Token.endMarker b.finish)

def advance (b : TokenQueue) : TokenQueue :=
  { b with tokens := b.tokens.tail }

instance : TokenStream TokenQueue where
  peek := peek
  advance := advance
  remaining b := b.tokens.length
  remaining_advance b h := by
    cases b with
    | mk tokens finish =>
      cases tokens with
      | nil => exact absurd rfl h
      | cons t ts => exact Nat.lt_succ_self _

end TokenQueue

end MipsCompiler
