import MipsCompiler.Numeral
import MipsCompiler.Ty.Basic

set_option autoImplicit false

/-!
# Sizes of types

A scalar fills one word of four bytes and an array its extent times its element. A size has to fit in
a word; the other types have none.
-/

namespace MipsCompiler

def wordBytes : Nat := 4

namespace Ty

def size? : Ty → Option Nat
  | int => some wordBytes
  | float => some wordBytes
  | bool => some wordBytes
  | array extent base =>
    match size? base with
    | some bytes => if bytes * extent < Word.count then some (bytes * extent) else none
    | none => none
  | _ => none

end Ty

end MipsCompiler
