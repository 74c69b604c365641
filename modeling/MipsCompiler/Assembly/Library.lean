set_option autoImplicit false

/-!
# The library

The strings and the six routines that every program carries. A routine takes its argument from the
top of the stack, where the caller leaves it, and gives its result in `$v0`.
-/

namespace MipsCompiler

structure LibraryString where
  label : String
  directive : String

def LibraryString.text (s : LibraryString) : String :=
  s.label ++ ":" ++ s.directive

/-- A line of a routine. A `reference` is an instruction whose last operand is a label. -/
inductive RoutineLine where
  | label (name : String)
  | plain (instruction : String)
  | reference (instruction target : String)

def RoutineLine.text : RoutineLine → String
  | label name => name ++ ":"
  | plain instruction => instruction
  | reference instruction target => instruction ++ target

namespace Library

def strings : List LibraryString :=
  [⟨"data.newline", "      .asciiz       \"\\n\""⟩,
    ⟨"data.floatquery", "   .asciiz       \"float?\""⟩,
    ⟨"data.intquery", "     .asciiz       \"int?\""⟩,
    ⟨"data.trueString", "   .asciiz       \"true\""⟩,
    ⟨"data.falseString", "  .asciiz       \"false\""⟩]

def printBool : List RoutineLine :=
  [.label "func.printBool",
    .plain "lw $a0, 0($sp)",
    .reference "beqz $a0, " "label.printBool.loadFalse",
    .reference "la $a0, " "data.trueString",
    .reference "j " "label.printBool.join",
    .label "label.printBool.loadFalse",
    .reference "la $a0, " "data.falseString",
    .label "label.printBool.join",
    .plain "li   $v0, 4",
    .plain "syscall",
    .plain "jr $ra"]

def printFloat : List RoutineLine :=
  [.label "func.printFloat",
    .plain "l.s  $f12, 0($sp)",
    .plain "li   $v0,  2",
    .plain "syscall",
    .plain "jr $ra"]

def printInt : List RoutineLine :=
  [.label "func.printInt",
    .plain "lw   $a0, 0($sp)",
    .plain "li   $v0, 1",
    .plain "syscall",
    .plain "jr $ra"]

def println : List RoutineLine :=
  [.label "func.println",
    .reference "la   $a0, " "data.newline",
    .plain "li   $v0, 4",
    .plain "syscall",
    .plain "jr $ra"]

def readFloat : List RoutineLine :=
  [.label "func.readFloat",
    .reference "la   $a0, " "data.floatquery",
    .plain "li   $v0, 4",
    .plain "syscall",
    .plain "li   $v0, 6",
    .plain "syscall",
    .plain "mfc1 $v0, $f0",
    .plain "jr $ra"]

def readInt : List RoutineLine :=
  [.label "func.readInt",
    .reference "la   $a0, " "data.intquery",
    .plain "li   $v0, 4",
    .plain "syscall",
    .plain "li   $v0, 5",
    .plain "syscall",
    .plain "jr $ra"]

def routines : List RoutineLine :=
  printBool ++ printFloat ++ printInt ++ println ++ readFloat ++ readInt

end Library

end MipsCompiler
