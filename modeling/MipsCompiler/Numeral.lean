set_option autoImplicit false

/-!
# Decimal numerals

A numeral in an expression is read into a 32-bit word and wraps; an array extent is read exactly and
has to fit in 32 bits.
-/

namespace MipsCompiler

abbrev Word := BitVec 32

def Word.count : Nat := 4294967296

namespace Numeral

def digitValue (c : Char) : Nat :=
  c.toNat - '0'.toNat

def value (digits : List Char) : Nat :=
  digits.foldl (fun total c => 10 * total + digitValue c) 0

/-- The digits of a lexeme accumulated in one word. Other characters are passed over. -/
def word (lexeme : String) : Word :=
  (lexeme.toList.filter Char.isDigit).foldl
    (fun total c => 10 * total + BitVec.ofNat 32 (digitValue c)) 0

def dropPlus : List Char → List Char
  | '+' :: cs => cs
  | cs => cs

/-- An extent: digits, after one plus sign at most, whose value fits in a word. -/
def extent? (lexeme : String) : Option Nat :=
  let digits := dropPlus lexeme.toList
  if digits ≠ [] ∧ digits.all Char.isDigit ∧ value digits < Word.count then some (value digits)
  else none

end Numeral

end MipsCompiler
