import MipsCompiler.Text.Blank
import MipsCompiler.Token.Stream

set_option autoImplicit false

/-!
# Scanning a source text

A token is the longest one that starts where the trivia (blank characters and `//` comments) ends.
A digit starts a number, a letter or underscore a word, and anything else is an operator or, failing
that, one unrecognised character. At the end of the text the scanner gives the end marker, and goes
on giving it.
-/

namespace MipsCompiler

structure Cursor where
  rest : List Char
  pos : Position

namespace Cursor

/-- Steps over trivia. A comment is entered at its first slash and left with its line feed. -/
def skipTrivia (inComment : Bool) (pos : Position) : List Char → Cursor
  | [] => ⟨[], pos⟩
  | c :: cs =>
    if inComment then skipTrivia (c ≠ '\n') (pos.after c) cs
    else if Text.isBlank c then skipTrivia false (pos.after c) cs
    else if c = '/' ∧ cs.head? = some '/' then skipTrivia true (pos.after c) cs
    else ⟨c :: cs, pos⟩

def isWordStart (c : Char) : Bool :=
  c.isAlpha || c = '_'

def isWordPart (c : Char) : Bool :=
  c.isAlphanum || c = '_'

/-- A number whose first digit is `c`. A point makes it a float, digits after it or not. -/
def number (c : Char) (cs : List Char) : TokenKind × List Char :=
  let digits := c :: cs.takeWhile Char.isDigit
  match cs.dropWhile Char.isDigit with
  | '.' :: fraction => (.float, digits ++ '.' :: fraction.takeWhile Char.isDigit)
  | _ => (.integer, digits)

def word (c : Char) (cs : List Char) : TokenKind × List Char :=
  let letters := c :: cs.takeWhile isWordPart
  ((TokenKind.ofKeyword? (String.ofList letters)).getD .identifier, letters)

def operator (c : Char) (cs : List Char) : TokenKind × List Char :=
  match TokenKind.operatorAt? (c :: cs) with
  | some kind => (kind, (kind.lexeme?.getD "").toList)
  | none => (.error, [c])

def lexemeAt : List Char → TokenKind × List Char
  | [] => (.eof, [])
  | c :: cs =>
    if c.isDigit then number c cs
    else if isWordStart c then word c cs
    else operator c cs

def scan (cursor : Cursor) : Token × Cursor :=
  let here := skipTrivia false cursor.pos cursor.rest
  let found := lexemeAt here.rest
  (⟨found.1, String.ofList found.2, here.pos⟩,
    ⟨here.rest.drop found.2.length, here.pos.afterAll found.2⟩)

theorem skipTrivia_length (cs : List Char) (inComment : Bool) (pos : Position) :
    (skipTrivia inComment pos cs).rest.length ≤ cs.length := by
  induction cs generalizing inComment pos with
  | nil => exact Nat.le_refl _
  | cons c cs ih =>
    have step (b : Bool) (p : Position) :
        (skipTrivia b p cs).rest.length ≤ (c :: cs).length :=
      Nat.le_succ_of_le (ih b p)
    unfold skipTrivia
    split
    · exact step _ _
    split
    · exact step _ _
    split
    · exact step _ _
    · exact Nat.le_refl _

theorem operator_lexeme : ∀ kind ∈ TokenKind.operators, (kind.lexeme?.getD "").toList ≠ [] := by
  decide

theorem lexemeAt_length (c : Char) (cs : List Char) : 0 < (lexemeAt (c :: cs)).2.length := by
  simp only [lexemeAt]
  split
  · unfold number
    dsimp only
    split <;> simp
  split
  · simp [word]
  · unfold operator
    split
    · next kind found =>
      exact List.length_pos_iff.2 (operator_lexeme kind (List.mem_of_find?_eq_some found))
    · simp

theorem scan_length (cursor : Cursor) (h : cursor.scan.1.kind ≠ .eof) :
    cursor.scan.2.rest.length < cursor.rest.length := by
  have shorter := skipTrivia_length cursor.rest false cursor.pos
  simp only [scan] at h ⊢
  cases found : (skipTrivia false cursor.pos cursor.rest).rest with
  | nil => simp [found, lexemeAt] at h
  | cons c cs =>
    have taken := lexemeAt_length c cs
    rw [found] at shorter
    simp only [List.length_drop, List.length_cons] at shorter ⊢
    omega

end Cursor

structure Scanner where
  current : Token
  cursor : Cursor

namespace Scanner

def ofCursor (cursor : Cursor) : Scanner :=
  ⟨cursor.scan.1, cursor.scan.2⟩

def ofText (source : String) : Scanner :=
  ofCursor ⟨source.toList, Position.start⟩

def remaining (s : Scanner) : Nat :=
  if s.current.kind = .eof then 0 else s.cursor.rest.length + 1

theorem remaining_ofCursor (cursor : Cursor) :
    (ofCursor cursor).remaining ≤ cursor.rest.length := by
  unfold remaining ofCursor
  split
  · exact Nat.zero_le _
  · exact cursor.scan_length (by assumption)

instance : TokenStream Scanner where
  peek s := s.current
  advance s := ofCursor s.cursor
  remaining := remaining
  remaining_advance s h := by
    have bound := remaining_ofCursor s.cursor
    simp only [remaining, h, if_false] at bound ⊢
    omega

end Scanner

def tokensOf (source : String) : List Token :=
  Token.throughEnd (TokenStream.pull (source.length + 1) (Scanner.ofText source))

end MipsCompiler
