set_option autoImplicit false

/-!
# Labels

Names are requested one after the other. The first request for a name gets the name itself, and a
later one gets it with the number of earlier requests behind a dot.
-/

namespace MipsCompiler

/-- The names requested so far, latest first. -/
structure LabelSupply where
  requested : List String

namespace LabelSupply

def empty : LabelSupply := ⟨[]⟩

def label (name : String) (earlier : Nat) : String :=
  if earlier = 0 then name else name ++ "." ++ toString earlier

def request (supply : LabelSupply) (name : String) : String × LabelSupply :=
  (label name (supply.requested.count name), ⟨name :: supply.requested⟩)

def requestAll (supply : LabelSupply) : List String → List String
  | [] => []
  | name :: names =>
    let answer := supply.request name
    answer.1 :: requestAll answer.2 names

end LabelSupply

end MipsCompiler
