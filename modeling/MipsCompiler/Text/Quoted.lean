import MipsCompiler.Text.Hidden

set_option autoImplicit false

/-!
# Quoted text

A text between double quotes, in which every character can be seen. A quote and a backslash follow
a backslash, the four common control characters have letters of their own, and any other hidden
character is written by its number in braces.
-/

namespace MipsCompiler.Text

def byNumber (c : Char) : List Char :=
  ['\\', 'u', Char.ofNat 0x7b] ++ Nat.toDigits 16 c.toNat ++ [Char.ofNat 0x7d]

def escape (c : Char) : List Char :=
  if c = Char.ofNat 0 then ['\\', '0']
  else if c = '\t' then ['\\', 't']
  else if c = '\r' then ['\\', 'r']
  else if c = '\n' then ['\\', 'n']
  else if c = '\\' then ['\\', '\\']
  else if c = '"' then ['\\', '"']
  else if isHidden c then byNumber c
  else [c]

def quoted (text : String) : String :=
  "\"" ++ String.ofList (text.toList.flatMap escape) ++ "\""

end MipsCompiler.Text
