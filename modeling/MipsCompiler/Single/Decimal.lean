import MipsCompiler.Numeral

set_option autoImplicit false

/-!
# Decimal fractions

The numbers that a float lexeme can denote, before they are rounded: a sign, a natural number and a
power of ten. A lexeme has digits before or after its point, or both, and may end in an exponent.
-/

namespace MipsCompiler

/-- The number `± digits * 10 ^ exponent`. -/
structure Decimal where
  negative : Bool
  digits : Nat
  exponent : Int
deriving DecidableEq

namespace Decimal

def splitSign : List Char → Bool × List Char
  | '-' :: cs => (true, cs)
  | '+' :: cs => (false, cs)
  | cs => (false, cs)

def splitFraction : List Char → List Char × List Char
  | '.' :: cs => (cs.takeWhile Char.isDigit, cs.dropWhile Char.isDigit)
  | cs => ([], cs)

def signedValue (cs : List Char) : Option Int :=
  let signed := splitSign cs
  if signed.2 ≠ [] ∧ signed.2.all Char.isDigit then
    some (if signed.1 then -(Numeral.value signed.2 : Int) else Numeral.value signed.2)
  else none

def exponent? : List Char → Option Int
  | [] => some 0
  | 'e' :: cs => signedValue cs
  | 'E' :: cs => signedValue cs
  | _ => none

def ofText? (text : String) : Option Decimal :=
  let signed := splitSign text.toList
  let whole := signed.2.takeWhile Char.isDigit
  let tail := splitFraction (signed.2.dropWhile Char.isDigit)
  if whole ++ tail.1 = [] then none
  else (exponent? tail.2).map fun exponent =>
    ⟨signed.1, Numeral.value (whole ++ tail.1), exponent - tail.1.length⟩

end Decimal

end MipsCompiler
