import MipsCompiler.Assembly.Instruction
import MipsCompiler.Ty.Size

set_option autoImplicit false

/-!
# The evaluation stack

Generated code keeps its intermediate values on a stack that grows down from `$sp`, one word each. A
`StackOp` is a step of that discipline: the lines that carry it out, the words it takes and the words
it gives. A step that drops more bytes than a word can count is not taken at all; one that takes
words the stack does not have is found out after its lines. The sequences that build and remove a
function's frame stand outside of the discipline.
-/

namespace MipsCompiler

inductive StackOp where
  | pushWord (source : Reg)
  | pushSingle (source : Reg)
  | popWord (target : Reg)
  | popSingle (target : Reg)
  | drop (words : Nat)
  | handOver (label : String)
deriving DecidableEq

inductive StackFault where
  | overflow
  | underflow
deriving DecidableEq

def StackFault.message : StackFault → String
  | overflow => "attempt to multiply with overflow"
  | underflow => "evaluation stack underflow"

namespace StackOp

def grow (bytes : Nat) : Line :=
  .instr (.immediate .subu .sp .sp bytes)

def shrink : Line :=
  .instr (.immediate .addiu .sp .sp wordBytes)

/-- The bytes of a count of words. The count is cut to 32 bits first. -/
def droppedBytes (words : Nat) : Nat :=
  words % Word.count * wordBytes

/-- Handing a word over leaves it on the stack for the code at the label. -/
def lines : StackOp → Code
  | pushWord source => [grow wordBytes, .instr (.storeWord source 0 .sp)]
  | pushSingle source => [grow wordBytes, .instr (.storeSingle source 0 .sp)]
  | popWord target => [.instr (.loadWord target 0 .sp), shrink]
  | popSingle target => [.instr (.loadSingle target 0 .sp), shrink]
  | drop words =>
    if words = 0 then [] else [.instr (.immediate .addi .sp .sp (droppedBytes words))]
  | handOver label => [.instr (.jump label)]

def taken : StackOp → Nat
  | pushWord _ => 0
  | pushSingle _ => 0
  | popWord _ => 1
  | popSingle _ => 1
  | drop words => words
  | handOver _ => 1

def given : StackOp → Nat
  | pushWord _ => 1
  | pushSingle _ => 1
  | _ => 0

def fits : StackOp → Bool
  | drop words => decide (droppedBytes words < Word.count)
  | _ => true

def depthAfter (op : StackOp) (depth : Nat) : Except StackFault Nat :=
  if !op.fits then .error .overflow
  else if op.taken ≤ depth then .ok (depth - op.taken + op.given)
  else .error .underflow

end StackOp

def savedSize : Nat := 8

namespace Code

def retrieve (target : Reg) : Code :=
  [.instr (.loadWord target 0 .sp), StackOp.shrink]

/-- Saves the caller's frame, sets `$fp` and reserves the bytes of the locals. -/
def prologue (locals : Nat) : Code :=
  [StackOp.grow savedSize, .instr (.storeWord .fp 0 .sp), .instr (.storeWord .ra 4 .sp),
    .instr (.immediate .addi .fp .sp savedSize), StackOp.grow locals]

def epilogue (locals : Nat) : Code :=
  [.instr (.immediate .addu .sp .sp locals), .instr (.loadWord .ra 4 .sp),
    .instr (.loadWord .fp 0 .sp), .instr (.immediate .addu .sp .sp savedSize),
    .instr (.jumpRegister .ra)]

def exit : Code :=
  [.instr (.service 10), .instr .syscall]

end Code

end MipsCompiler
