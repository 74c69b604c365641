import MipsCompiler.Assembly.Label
import MipsCompiler.Assembly.Library
import MipsCompiler.Assembly.Stack

set_option autoImplicit false

/-!
# Assembly programs

A program under construction: its data and code segments, the labels requested so far, and the depth
of the evaluation stack at the end of its code. `Program.text` is the finished assembly file.
-/

namespace MipsCompiler

inductive DataLine where
  | space (label : String) (bytes : Nat)
  | verbatim (text : String)
deriving DecidableEq

def DataLine.text : DataLine → String
  | space label bytes => label ++ ": .space " ++ toString bytes
  | verbatim text => text

structure Program where
  data : List DataLine
  code : Code
  labels : LabelSupply
  depth : Nat

namespace Program

def empty : Program := ⟨[], [], LabelSupply.empty, 0⟩

def append (p : Program) (code : Code) : Program :=
  { p with code := p.code ++ code }

def appendData (p : Program) (line : DataLine) : Program :=
  { p with data := p.data ++ [line] }

def requestLabel (p : Program) (name : String) : String × Program :=
  let answer := p.labels.request name
  (answer.1, { p with labels := answer.2 })

/-- Takes a stack step. A fault leaves the depth as it was; the lines are appended all the same if
the stack turns out to lack the words, and not if the step itself is too large. -/
def perform (p : Program) (op : StackOp) : Option StackFault × Program :=
  match op.depthAfter p.depth with
  | .ok depth => (none, { p.append op.lines with depth := depth })
  | .error .underflow => (some .underflow, p.append op.lines)
  | .error .overflow => (some .overflow, p)

def lines (p : Program) : List String :=
  [".data                         # BEGIN Data Segment"] ++
    p.data.map DataLine.text ++
    Library.strings.map LibraryString.text ++
    ["                              # END Data Segment",
      ".text                         # BEGIN Code Segment"] ++
    Library.routines.map RoutineLine.text ++
    [".text                         # BEGIN Crux Program"] ++
    p.code.map Line.text ++
    ["                              # END Code Segment"]

def text (p : Program) : String :=
  String.join (p.lines.map fun line => line ++ "\n")

end Program

end MipsCompiler
