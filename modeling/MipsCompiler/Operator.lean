import MipsCompiler.Token.Kind
import MipsCompiler.Ty.Fault

set_option autoImplicit false

/-!
# Binary operators

Twelve operators in three tiers of binding strength: comparisons bind loosest and do not chain, then
sums with `or`, then products with `and`.
-/

namespace MipsCompiler

inductive Comparison where
  | ge
  | le
  | ne
  | eq
  | gt
  | lt
deriving DecidableEq

inductive BinaryOp where
  | add
  | sub
  | mul
  | div
  | and
  | or
  | compare (comparison : Comparison)
deriving DecidableEq

inductive Tier where
  | comparison
  | sum
  | product
deriving DecidableEq

namespace Comparison

def text : Comparison → String
  | ge => ">="
  | le => "<="
  | ne => "!="
  | eq => "=="
  | gt => ">"
  | lt => "<"

def ofKind? : TokenKind → Option Comparison
  | .greaterEqual => some ge
  | .lesserEqual => some le
  | .notEqual => some ne
  | .equal => some eq
  | .greaterThan => some gt
  | .lessThan => some lt
  | _ => none

end Comparison

namespace BinaryOp

def text : BinaryOp → String
  | add => "+"
  | sub => "-"
  | mul => "*"
  | div => "/"
  | and => "and"
  | or => "or"
  | compare comparison => comparison.text

def operation : BinaryOp → Operation
  | add => .add
  | sub => .sub
  | mul => .mul
  | div => .div
  | and => .and
  | or => .or
  | compare _ => .compare

def tier : BinaryOp → Tier
  | add => .sum
  | sub => .sum
  | or => .sum
  | mul => .product
  | div => .product
  | and => .product
  | compare _ => .comparison

def ofKind? : TokenKind → Option BinaryOp
  | .add => some add
  | .sub => some sub
  | .mul => some mul
  | .div => some div
  | .andKw => some and
  | .orKw => some or
  | kind => (Comparison.ofKind? kind).map compare

end BinaryOp

def Tier.operator? (tier : Tier) (kind : TokenKind) : Option BinaryOp :=
  (BinaryOp.ofKind? kind).filter fun op => op.tier = tier

end MipsCompiler
