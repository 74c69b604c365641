import MipsCompiler.Assembly.Stack
import MipsCompiler.Diagnostic

set_option autoImplicit false

/-!
# Lowering faults

A tree is refused for one of the causes in `Refusal`. A tree whose types do not fit it can also
break the stack discipline, which is a fault of its own and no diagnostic.
-/

namespace MipsCompiler

inductive Action where
  | load
  | index
  | combine
deriving DecidableEq

def Action.text : Action → String
  | load => "load"
  | index => "index"
  | combine => "combine"

inductive Refusal where
  | errorNode (pos : Position) (message : String)
  | untyped (pos : Position)
  | unsized (pos : Position) (ty : Ty)
  | invalidOperand (pos : Position) (action : Action) (ty : Ty)
  | unbound (pos : Position) (name : String)
deriving DecidableEq

namespace Refusal

def pos : Refusal → Position
  | errorNode pos _ => pos
  | untyped pos => pos
  | unsized pos _ => pos
  | invalidOperand pos _ _ => pos
  | unbound pos _ => pos

def message : Refusal → String
  | errorNode _ message => "CodeGen cannot compile an error node: " ++ message
  | untyped _ => "CodeGen cannot compile a node that was not type checked."
  | unsized _ ty => "No size known for " ++ ty.text ++ "."
  | invalidOperand _ action ty =>
    "CodeGen cannot " ++ action.text ++ " a value of type " ++ ty.text ++ "."
  | unbound _ name => "CodeGen has no storage for " ++ name ++ "."

def diagnostic (refusal : Refusal) : Diagnostic :=
  .unlowered refusal.pos refusal.message

end Refusal

inductive Fault where
  | refused (refusal : Refusal)
  | stack (fault : StackFault)
  | unbalanced (pos : Position) (after before : Nat)
deriving DecidableEq

def Fault.message : Fault → String
  | refused refusal => refusal.diagnostic.line
  | stack fault => fault.message
  | unbalanced pos after before =>
    "assertion `left == right` failed: statement at " ++ pos.text ++ " changed the stack depth\n" ++
      "  left: " ++ toString after ++ "\n right: " ++ toString before

end MipsCompiler
