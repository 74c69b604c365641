set_option autoImplicit false

/-!
# Types

The types of the language, their text, and their equality. An `error` type carries the message of
the fault it came from, so that a fault travels through later rules unchanged.
-/

namespace MipsCompiler

inductive Ty where
  | int
  | float
  | bool
  | void
  | array (extent : Nat) (base : Ty)
  | address (base : Ty)
  | func (params : List Ty) (result : Ty)
  | error (message : String)

namespace Ty

mutual

def same : Ty → Ty → Bool
  | int, int => true
  | float, float => true
  | bool, bool => true
  | void, void => true
  | array m s, array n t => decide (m = n) && same s t
  | address s, address t => same s t
  | func ps s, func qs t => sameAll ps qs && same s t
  | error m, error n => decide (m = n)
  | _, _ => false

def sameAll : List Ty → List Ty → Bool
  | [], [] => true
  | s :: ss, t :: ts => same s t && sameAll ss ts
  | _, _ => false

end

mutual

theorem eq_of_same (s t : Ty) (h : same s t = true) : s = t := by
  cases s <;> cases t <;> simp_all [same]
  case array.array m s n t => exact eq_of_same s t h.2
  case address.address s t => exact eq_of_same s t h
  case func.func ps s qs t => exact ⟨eq_of_sameAll ps qs h.1, eq_of_same s t h.2⟩

theorem eq_of_sameAll (ss ts : List Ty) (h : sameAll ss ts = true) : ss = ts := by
  cases ss <;> cases ts <;> simp_all [sameAll]
  case cons.cons s ss t ts => exact ⟨eq_of_same s t h.1, eq_of_sameAll ss ts h.2⟩

end

mutual

theorem same_self (t : Ty) : same t t = true := by
  cases t <;> simp [same]
  case array n t => exact same_self t
  case address t => exact same_self t
  case func ps t => exact ⟨sameAll_self ps, same_self t⟩

theorem sameAll_self (ts : List Ty) : sameAll ts ts = true := by
  cases ts <;> simp [sameAll]
  case cons t ts => exact ⟨same_self t, sameAll_self ts⟩

end

theorem same_iff (s t : Ty) : same s t = true ↔ s = t :=
  ⟨eq_of_same s t, fun h => h ▸ same_self s⟩

instance : DecidableEq Ty := fun s t => decidable_of_iff _ (same_iff s t)

mutual

def text : Ty → String
  | int => "int"
  | float => "float"
  | bool => "bool"
  | void => "void"
  | array extent base => "array[" ++ toString extent ++ "," ++ text base ++ "]"
  | address base => "Address(" ++ text base ++ ")"
  | func params result => "func(TypeList(" ++ textAll params ++ ")):" ++ text result
  | error message => "ErrorType(" ++ message ++ ")"

def textAll : List Ty → String
  | [] => ""
  | [t] => text t
  | t :: ts => text t ++ ", " ++ textAll ts

end

/-- The text of an argument list: `TypeList(int, float)`. -/
def listText (ts : List Ty) : String :=
  "TypeList(" ++ textAll ts ++ ")"

def isError : Ty → Bool
  | error _ => true
  | _ => false

def isVoid : Ty → Bool
  | void => true
  | _ => false

def isFloat : Ty → Bool
  | float => true
  | _ => false

/-- A scalar fills one word. -/
def isScalar : Ty → Bool
  | int => true
  | float => true
  | bool => true
  | _ => false

def errorMessage? : Ty → Option String
  | error message => some message
  | _ => none

/-- What remains of an array type when all its extents are taken off. -/
def innermost : Ty → Ty
  | array _ base => innermost base
  | t => t

def result? : Ty → Option Ty
  | func _ result => some result
  | _ => none

def yieldsWord (t : Ty) : Bool :=
  match t.result? with
  | some result => !result.isVoid
  | none => false

end Ty

end MipsCompiler
