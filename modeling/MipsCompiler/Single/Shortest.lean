import MipsCompiler.Single.Basic

set_option autoImplicit false

/-!
# The shortest text of a single precision number

A number is written with the fewest digits that round back to it and, among those, the nearest to
it. The digits stand on the coarsest grid of multiples of a power of ten that has a point in the
interval of reals rounding to the number.
-/

namespace MipsCompiler

namespace Single

/-- The interval of reals that round to a number, in quarters of its unit `2 ^ (e - 2)`. Its ends
belong to it when the significand is even. -/
structure Rounding where
  low : Nat
  middle : Nat
  high : Nat
  closed : Bool
  unit : Int

def negative (x : Single) : Bool :=
  x.bits.msb

def exponentField (x : Single) : Nat :=
  x.bits.toNat / fractionCount % 256

def fraction (x : Single) : Nat :=
  x.bits.toNat % fractionCount

def significand (x : Single) : Nat :=
  if x.exponentField = 0 then x.fraction else x.fraction + fractionCount

/-- The gap below a power of two is half the gap above it, except at the bottom of the range. -/
def rounding (x : Single) : Rounding where
  low := 4 * x.significand - (if x.fraction = 0 ∧ 1 < x.exponentField then 1 else 2)
  middle := 4 * x.significand
  high := 4 * x.significand + 2
  closed := x.significand % 2 = 0
  unit := (max x.exponentField 1 : Int) - 152

namespace Rounding

def contains (r : Rounding) (left right point : Nat) : Bool :=
  if r.closed then r.low * left ≤ point * right && point * right ≤ r.high * left
  else r.low * left < point * right && point * right < r.high * left

/-- The multiple of `10 ^ grid` in the interval that is nearest to its middle, if there is one. A
tie goes to the larger. -/
def nearestOn (r : Rounding) (grid : Int) : Option Nat :=
  let left := Nat.pow 2 r.unit.toNat * Nat.pow 10 (-grid).toNat
  let right := Nat.pow 10 grid.toNat * Nat.pow 2 (-r.unit).toNat
  let below := r.middle * left / right
  let above := below + 1
  match r.contains left right below, r.contains left right above with
  | true, true =>
    if r.middle * left - below * right < above * right - r.middle * left then some below
    else some above
  | true, false => some below
  | false, true => some above
  | false, false => none

def grids : List Int :=
  (List.range 192).map fun (n : Nat) => (39 : Int) - n

def shortest (r : Rounding) : Nat × Int :=
  (grids.findSome? fun grid => (r.nearestOn grid).map fun point => (point, grid)).getD (0, 0)

end Rounding

def positional (digits : List Char) (grid : Int) : List Char :=
  if 0 ≤ grid then digits ++ List.replicate grid.toNat '0' ++ ['.', '0']
  else
    let places := (-grid).toNat
    if places < digits.length then
      digits.take (digits.length - places) ++ '.' :: digits.drop (digits.length - places)
    else '0' :: '.' :: List.replicate (places - digits.length) '0' ++ digits

def scientific (digits : List Char) (exponent : Int) : List Char :=
  let mantissa :=
    match digits with
    | first :: second :: rest => first :: '.' :: second :: rest
    | short => short
  mantissa ++ 'e' :: (toString exponent).toList

/-- Powers of ten from -4 to 15 are written out; the others carry an exponent. -/
def magnitudeText (x : Single) : List Char :=
  if x.significand = 0 then ['0', '.', '0']
  else
    let decimal := x.rounding.shortest
    let digits := Nat.toDigits 10 decimal.1
    let exponent : Int := digits.length - 1 + decimal.2
    if -4 ≤ exponent ∧ exponent < 16 then positional digits decimal.2
    else scientific digits exponent

def text (x : Single) : String :=
  String.ofList (if x.negative then '-' :: x.magnitudeText else x.magnitudeText)

end Single

end MipsCompiler
