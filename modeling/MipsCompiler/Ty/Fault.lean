import MipsCompiler.Ty.Basic

set_option autoImplicit false

/-!
# Type faults

The causes for which a rule of the type system refuses a program, and their wording.
-/

namespace MipsCompiler

/-- The operations of the type algebra. The six comparisons share one. -/
inductive Operation where
  | add
  | sub
  | mul
  | div
  | and
  | or
  | compare
deriving DecidableEq

inductive Construct where
  | branch
  | loop
deriving DecidableEq

def Construct.name : Construct → String
  | branch => "IfElseBranch"
  | loop => "WhileLoop"

inductive TypeFault where
  | unknownName (name : String)
  | operands (op : Operation) (left right : Ty)
  | negation (operand : Ty)
  | dereference (operand : Ty)
  | index (base offset : Ty)
  | assignment (target source : Ty)
  | call (callee : Ty) (args : List Ty)
  | variableType (name : String) (ty : Ty)
  | arrayBase (name : String) (base : Ty)
  | arraySize (name : String) (ty : Ty)
  | entrySignature (name : String)
  | voidParameter (name : String) (slot : Nat)
  | brokenParameter (name : String) (slot : Nat) (message : String)
  | brokenResult (name : String) (result : Ty)
  | missingReturn (name : String)
  | condition (construct : Construct) (ty : Ty)
  | returned (name : String) (expected actual : Ty)

namespace TypeFault

def operandsMessage (left right : Ty) : Operation → String
  | .add => "Cannot add " ++ left.text ++ " with " ++ right.text ++ "."
  | .sub => "Cannot subtract " ++ right.text ++ " from " ++ left.text ++ "."
  | .mul => "Cannot multiply " ++ left.text ++ " with " ++ right.text ++ "."
  | .div => "Cannot divide " ++ left.text ++ " by " ++ right.text ++ "."
  | .and => "Cannot compute " ++ left.text ++ " and " ++ right.text ++ "."
  | .or => "Cannot compute " ++ left.text ++ " or " ++ right.text ++ "."
  | .compare => "Cannot compare " ++ left.text ++ " with " ++ right.text ++ "."

def message : TypeFault → String
  | unknownName name => "Unknown type: " ++ name ++ "."
  | operands op left right => operandsMessage left right op
  | negation operand => "Cannot negate " ++ operand.text ++ "."
  | dereference operand => "Cannot dereference " ++ operand.text ++ "."
  | index base offset => "Cannot index " ++ base.text ++ " with " ++ offset.text ++ "."
  | assignment target source => "Cannot assign " ++ source.text ++ " to " ++ target.text ++ "."
  | call callee args => "Cannot call " ++ callee.text ++ " using " ++ Ty.listText args ++ "."
  | variableType name ty => "Variable " ++ name ++ " has invalid type " ++ ty.text ++ "."
  | arrayBase name base => "Array " ++ name ++ " has invalid base type " ++ base.text ++ "."
  | arraySize name ty => "Array " ++ name ++ " of type " ++ ty.text ++ " is too large."
  | entrySignature name => "Function " ++ name ++ " has invalid signature."
  | voidParameter name slot =>
    "Function " ++ name ++ " has a void argument in position " ++ toString slot ++ "."
  | brokenParameter name slot message =>
    "Function " ++ name ++ " has an error in argument in position " ++ toString slot ++ ": " ++
      message
  | brokenResult name result =>
    "Function " ++ name ++ " has invalid return type " ++ result.text ++ "."
  | missingReturn name => "Not all paths in function " ++ name ++ " have a return."
  | condition construct ty =>
    construct.name ++ " requires bool condition not " ++ ty.text ++ "."
  | returned name expected actual =>
    "Function " ++ name ++ " returns " ++ expected.text ++ " not " ++ actual.text ++ "."

def ty (fault : TypeFault) : Ty :=
  .error fault.message

end TypeFault

end MipsCompiler
