import MipsCompiler.Compilation
import MipsCompiler.Proofs.Parsing.TwoRuns

set_option autoImplicit false

/-!
# Sources of tokens

A parse depends on the tokens up to the first end marker and on nothing else: not on the kind of the
stream, and not on what it would show behind that marker. So a text can be scanned while it is parsed
or before.
-/

namespace MipsCompiler

open TokenStream (Agree peek)

def Correspondence.exact : Correspondence where
  place := id
  holds s log t other := t = s ∧ other = log
  initial := ⟨rfl, rfl⟩
  declare := by
    rintro s _ log _ ⟨rfl, rfl⟩ symbol
    exact ⟨rfl, rfl, rfl⟩
  resolve := by
    rintro s _ log _ ⟨rfl, rfl⟩ name pos
    exact ⟨rfl, rfl, rfl⟩
  retype := by
    rintro s _ log _ ⟨rfl, rfl⟩ id ty
    exact ⟨rfl, rfl⟩
  retypeFunction := by
    rintro s _ log _ ⟨rfl, rfl⟩ id params result
    exact ⟨rfl, rfl⟩
  enter := by
    rintro s _ log _ ⟨rfl, rfl⟩
    exact ⟨rfl, rfl⟩
  exit := by
    rintro s _ log _ ⟨rfl, rfl⟩
    exact ⟨rfl, rfl⟩

section

variable {σ τ : Type} [TokenStream σ] [TokenStream τ] {stream : σ} {other : τ}

theorem parse_eq_of_agree (h : ∀ k, Agree id k stream other) : parse other = parse stream := by
  have halike (k : Nat) : ParseState.Alike .exact k (.start stream) (.start other) :=
    ⟨h k, rfl, rfl, rfl⟩
  cases hrun : Parser.program (.start stream) with
  | ok tree s =>
    obtain ⟨t, hother, hcount, hscope, hlog⟩ := Parser.program_ok_level halike hrun
    have hmove : tree.move Correspondence.exact.place = tree := tree.move_id
    rw [parse_of_ok hrun, parse_of_ok hother, hscope, hlog, hcount, hmove]
  | error d s =>
    obtain ⟨t, hother, hcount, hscope, hlog⟩ := Parser.program_error_level halike hrun
    have hmove : d.move Correspondence.exact.place = d := d.move_id
    rw [parse_of_error hrun, parse_of_error hother, hscope, hlog, hcount, hmove]

theorem compile_eq_of_parse (h : parse other = parse stream) (options : Options) :
    compile other options = compile stream options := by
  unfold compile
  rw [h]

end

/-- A stream and the list of its tokens up to the first end marker. -/
theorem agree_pull {σ : Type} [TokenStream σ] {stream : σ} {n : Nat} (finish : Position)
    (h : TokenStream.remaining stream < n) (k : Nat) :
    Agree id k stream (⟨Token.throughEnd (TokenStream.pull n stream), finish⟩ : TokenQueue) := by
  induction n generalizing stream k with
  | zero => exact absurd h (Nat.not_lt_zero _)
  | succ n ih =>
    rw [TokenStream.pull, Token.throughEnd]
    split
    · next hend => exact .last rfl hend
    · next hkind =>
      cases k with
      | zero => exact .none
      | succ k =>
        have hfewer := TokenStream.remaining_advance stream hkind
        exact .next rfl (ih (by omega) k)

theorem TokenQueue.agree_append {place : Position → Position} {rest others : List Token}
    {finish last : Position} {k : Nat} (front : List Token)
    (h : Agree place k (⟨rest, finish⟩ : TokenQueue) (⟨others, last⟩ : TokenQueue)) :
    Agree place (front.length + k) (⟨front ++ rest, finish⟩ : TokenQueue)
      (⟨front.map (Token.move place) ++ others, last⟩ : TokenQueue) := by
  induction front with
  | nil =>
    rw [List.length_nil, Nat.zero_add]
    exact h
  | cons token front ih =>
    rw [List.length_cons, Nat.add_right_comm]
    exact .next rfl ih

theorem TokenQueue.agree_append_same {rest others : List Token} {finish last : Position} {k : Nat}
    (front : List Token)
    (h : Agree id k (⟨rest, finish⟩ : TokenQueue) (⟨others, last⟩ : TokenQueue)) :
    Agree id (front.length + k) (⟨front ++ rest, finish⟩ : TokenQueue)
      (⟨front ++ others, last⟩ : TokenQueue) := by
  have hagree := agree_append front h
  rwa [funext Token.move_id, List.map_id'] at hagree

theorem agree_through {marker : Token} (h : marker.kind = .eof) (front rest others : List Token)
    (finish last : Position) (k : Nat) :
    Agree id k (⟨front ++ marker :: rest, finish⟩ : TokenQueue)
      (⟨front ++ marker :: others, last⟩ : TokenQueue) := by
  have hlast : Agree id k (⟨marker :: rest, finish⟩ : TokenQueue)
      (⟨marker :: others, last⟩ : TokenQueue) := .last rfl h
  exact (TokenQueue.agree_append_same front hlast).mono (Nat.le_add_left k _)

theorem parseTokens_tokensOf (source : String) :
    parseTokens (tokensOf source) = parseText source := by
  have hbound := Scanner.remaining_ofCursor ⟨source.toList, Position.start⟩
  rw [String.length_toList] at hbound
  exact parse_eq_of_agree (agree_pull _ (Nat.lt_succ_of_le hbound))

/-- Parsing and compiling give the same on a text and on the list of its tokens, and the tokens
behind the first end marker of a list are not parsed. -/
theorem token_sources_interchangeable :
    (∀ source, parseText source = parseTokens (tokensOf source)) ∧
      (∀ source options, compileText source options = compileTokens (tokensOf source) options) ∧
      ∀ front marker rest others, marker.kind = .eof →
        parseTokens (front ++ marker :: rest) = parseTokens (front ++ marker :: others) := by
  refine ⟨fun source => (parseTokens_tokensOf source).symm, fun source options => ?_, ?_⟩
  · exact compile_eq_of_parse (parseTokens_tokensOf source).symm options
  · intro front marker rest others hend
    exact parse_eq_of_agree (agree_through hend front others rest _ _)

/-- The brace behind the first end marker would not be accepted before it. -/
theorem trailing_brace_unread :
    parseTokens [⟨.varKw, "var", ⟨1, 1⟩⟩, ⟨.eof, "", ⟨1, 4⟩⟩, ⟨.openBrace, "\x7b", ⟨9, 9⟩⟩] =
      parseTokens [⟨.varKw, "var", ⟨1, 1⟩⟩, ⟨.eof, "", ⟨1, 4⟩⟩] :=
  token_sources_interchangeable.2.2 [⟨.varKw, "var", ⟨1, 1⟩⟩] ⟨.eof, "", ⟨1, 4⟩⟩ _ [] rfl

end MipsCompiler
