import MipsCompiler.Single.Decimal

set_option autoImplicit false

/-!
# Single precision numbers

A number is kept as its 32-bit pattern: sign, eight bits of exponent, 23 bits of fraction. Decimals
are rounded straight to the nearest number, a tie going to the even one, in exact arithmetic.
-/

namespace MipsCompiler

structure Single where
  bits : Word
deriving DecidableEq

namespace Single

/-- The quotient of two naturals to the nearest natural, a half to the even neighbour. -/
def roundedQuotient (num den : Nat) : Nat :=
  let quotient := num / den
  let twice := 2 * (num % den)
  if twice < den then quotient
  else if den < twice then quotient + 1
  else quotient + quotient % 2

def fractionCount : Nat := 8388608

def leastExponent : Int := -149

/-- The quotient of `num / den` and `2 ^ e`, as a pair of naturals. -/
def overPower (num den : Nat) (e : Int) : Nat × Nat :=
  (num * Nat.pow 2 (-e).toNat, den * Nat.pow 2 e.toNat)

/-- The exponent `e` with `2 ^ e ≤ num / den < 2 ^ (e + 1)`, for positive `num` and `den`. -/
def binaryExponent (num den : Nat) : Int :=
  let guess : Int := (num.log2 : Int) - den.log2
  let scaled := overPower num den guess
  if scaled.2 ≤ scaled.1 then guess else guess - 1

/-- The pattern of the magnitude nearest to `num / den`. The carry out of the significand moves
into the exponent field, which is where it belongs. -/
def nearestPattern (num den : Nat) : Nat :=
  let e := max leastExponent (binaryExponent num den - 23)
  let scaled := overPower num den e
  (e - leastExponent).toNat * fractionCount + roundedQuotient scaled.1 scaled.2

def infinityPattern : Nat := 255 * fractionCount

def signPattern (negative : Bool) : Nat :=
  if negative then 256 * fractionCount else 0

/-- The pattern of a decimal's magnitude. Outside the powers of ten from -45 to 40 the answer is
known without the quotient. -/
def magnitudePattern (d : Decimal) : Nat :=
  let places : Int := (Nat.toDigits 10 d.digits).length + d.exponent
  if d.digits = 0 ∨ places < -45 then 0
  else if 40 < places then infinityPattern
  else nearestPattern (d.digits * Nat.pow 10 d.exponent.toNat) (Nat.pow 10 (-d.exponent).toNat)

def ofDecimal? (d : Decimal) : Option Single :=
  let magnitude := magnitudePattern d
  if magnitude < infinityPattern then
    some ⟨BitVec.ofNat 32 (signPattern d.negative + magnitude)⟩
  else none

def ofText? (text : String) : Option Single :=
  (Decimal.ofText? text).bind ofDecimal?

end Single

end MipsCompiler
