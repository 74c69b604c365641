import MipsCompiler.Single.Shortest

set_option autoImplicit false

/-!
# Instructions

The MIPS instructions of generated code, and the lines of a code segment. A register is known by its
name, so that a line can be made for any register.
-/

namespace MipsCompiler

structure Reg where
  name : String
deriving DecidableEq

namespace Reg

def zero : Reg := ⟨"$0"⟩
def t0 : Reg := ⟨"$t0"⟩
def t1 : Reg := ⟨"$t1"⟩
def t2 : Reg := ⟨"$t2"⟩
def f0 : Reg := ⟨"$f0"⟩
def f1 : Reg := ⟨"$f1"⟩
def f2 : Reg := ⟨"$f2"⟩
def v0 : Reg := ⟨"$v0"⟩
def sp : Reg := ⟨"$sp"⟩
def fp : Reg := ⟨"$fp"⟩
def ra : Reg := ⟨"$ra"⟩

end Reg

inductive ImmediateOp where
  | addi
  | addiu
  | addu
  | subu
  | xori
deriving DecidableEq

inductive WordOp where
  | add
  | sub
  | mul
  | div
  | and
  | or
  | sge
  | sle
  | sne
  | seq
  | sgt
  | slt
deriving DecidableEq

inductive SingleOp where
  | add
  | sub
  | mul
  | div
deriving DecidableEq

/-- Tests of two single precision numbers, which set or clear the coprocessor's flag. -/
inductive SingleTest where
  | lt
  | le
  | eq
deriving DecidableEq

inductive Instr where
  | immediate (op : ImmediateOp) (target source : Reg) (value : Int)
  | loadWord (target : Reg) (offset : Int) (base : Reg)
  | storeWord (source : Reg) (offset : Int) (base : Reg)
  | loadSingle (target : Reg) (offset : Int) (base : Reg)
  | storeSingle (source : Reg) (offset : Int) (base : Reg)
  | constant (target : Reg) (value : Int)
  | singleConstant (target : Reg) (value : Single)
  | loadAddress (target : Reg) (label : String)
  | word (op : WordOp) (target left right : Reg)
  | single (op : SingleOp) (target left right : Reg)
  | testSingle (op : SingleTest) (left right : Reg)
  | branchFlag (flag : Bool) (label : String)
  | branchEqual (left right : Reg) (label : String)
  | jump (label : String)
  | jumpLink (label : String)
  | jumpRegister (target : Reg)
  | service (number : Nat)
  | syscall
deriving DecidableEq

inductive Line where
  | label (name : String)
  | instr (instruction : Instr)
  | verbatim (text : String)
deriving DecidableEq

abbrev Code := List Line

def ImmediateOp.mnemonic : ImmediateOp → String
  | addi => "addi"
  | addiu => "addiu"
  | addu => "addu"
  | subu => "subu"
  | xori => "xori"

def WordOp.mnemonic : WordOp → String
  | add => "add"
  | sub => "sub"
  | mul => "mul"
  | div => "div"
  | and => "and"
  | or => "or"
  | sge => "sge"
  | sle => "sle"
  | sne => "sne"
  | seq => "seq"
  | sgt => "sgt"
  | slt => "slt"

def SingleOp.mnemonic : SingleOp → String
  | add => "add.s"
  | sub => "sub.s"
  | mul => "mul.s"
  | div => "div.s"

def SingleTest.mnemonic : SingleTest → String
  | lt => "c.lt.s"
  | le => "c.le.s"
  | eq => "c.eq.s"

namespace Instr

def withOperands (mnemonic : String) (operands : List String) : String :=
  mnemonic ++ " " ++ ", ".intercalate operands

def place (offset : Int) (base : Reg) : String :=
  toString offset ++ "(" ++ base.name ++ ")"

def text : Instr → String
  | immediate op target source value =>
    withOperands op.mnemonic [target.name, source.name, toString value]
  | loadWord target offset base => withOperands "lw" [target.name, place offset base]
  | storeWord source offset base => withOperands "sw" [source.name, place offset base]
  | loadSingle target offset base => withOperands "lwc1" [target.name, place offset base]
  | storeSingle source offset base => withOperands "swc1" [source.name, place offset base]
  | constant target value => withOperands "li" [target.name, toString value]
  | singleConstant target value => withOperands "li.s" [target.name, value.text]
  | loadAddress target label => withOperands "la" [target.name, label]
  | word op target left right => withOperands op.mnemonic [target.name, left.name, right.name]
  | single op target left right => withOperands op.mnemonic [target.name, left.name, right.name]
  | testSingle op left right => withOperands op.mnemonic [left.name, right.name]
  | branchFlag flag label => withOperands (if flag then "bc1t" else "bc1f") [label]
  | branchEqual left right label => withOperands "beq" [left.name, right.name, label]
  | jump label => withOperands "j" [label]
  | jumpLink label => withOperands "jal" [label]
  | jumpRegister target => withOperands "jr" [target.name]
  | service number => "li    $v0, " ++ toString number
  | syscall => "syscall"

end Instr

def Line.text : Line → String
  | label name => name ++ ":"
  | instr instruction => instruction.text
  | verbatim text => text

end MipsCompiler
