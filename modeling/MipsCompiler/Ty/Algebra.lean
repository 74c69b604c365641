import MipsCompiler.Ty.Fault

set_option autoImplicit false

/-!
# The algebra of types

One function per rule of the language, from the types of the operands to the type of the result.
If an operand is an error type, the first such operand is the result. If no rule fits, the result
is the error type of the fault that names the operands.
-/

namespace MipsCompiler

namespace Ty

def ofName (name : String) : Ty :=
  if name = "int" then int
  else if name = "float" then float
  else if name = "bool" then bool
  else if name = "void" then void
  else (TypeFault.unknownName name).ty

def firstError (operands : List Ty) : Option Ty :=
  operands.find? isError

def combine? : Operation → Ty → Ty → Option Ty
  | .add, int, int | .sub, int, int | .mul, int, int | .div, int, int => some int
  | .add, float, float | .sub, float, float | .mul, float, float | .div, float, float => some float
  | .and, bool, bool | .or, bool, bool => some bool
  | .compare, int, int | .compare, float, float | .compare, bool, bool => some bool
  | _, _, _ => none

def binary (op : Operation) (left right : Ty) : Ty :=
  (firstError [left, right]).getD
    ((combine? op left right).getD (TypeFault.operands op left right).ty)

def negate : Ty → Ty
  | error message => error message
  | bool => bool
  | operand => (TypeFault.negation operand).ty

def deref : Ty → Ty
  | error message => error message
  | address base => base
  | operand => (TypeFault.dereference operand).ty

/-- Indexing goes through an address to the address of the element. -/
def element? : Ty → Ty → Option Ty
  | array _ base, int => some base
  | address (array _ base), int => some (address base)
  | _, _ => none

def index (base offset : Ty) : Ty :=
  (firstError [base, offset]).getD ((element? base offset).getD (TypeFault.index base offset).ty)

def store? (target source : Ty) : Option Ty :=
  match target with
  | address base => if base.isScalar && decide (base = source) then some source else none
  | _ => none

def assign (target source : Ty) : Ty :=
  (firstError [target, source]).getD
    ((store? target source).getD (TypeFault.assignment target source).ty)

def callResult? (callee : Ty) (args : List Ty) : Option Ty :=
  match callee with
  | func params result => if params = args then some result else none
  | _ => none

def call (callee : Ty) (args : List Ty) : Ty :=
  (firstError (callee :: args)).getD ((callResult? callee args).getD (TypeFault.call callee args).ty)

/-- The type of a name used as a place. A broken declaration stays broken. -/
def place : Ty → Ty
  | error message => error message
  | declared => address declared

end Ty

end MipsCompiler
