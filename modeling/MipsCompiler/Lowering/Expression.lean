import MipsCompiler.Lowering.Basic

set_option autoImplicit false

/-!
# Lowering expressions

The code of an expression leaves its value on the stack, one word, unless the expression is a call
that returns nothing. Words travel through `$t0` to `$t2` and single precision numbers through `$f0`
to `$f2`; an operator takes its right operand first.
-/

namespace MipsCompiler

open Lower (perform performIf)

/-- The label of a function's code. The entry point keeps its own name. -/
def Symbol.codeLabel (entry : String) (s : Symbol) : String :=
  if s.name = entry then s.name else "func." ++ s.name

def Symbol.callLabel (entry : String) (s : Symbol) : String :=
  if s.name = entry && !s.isBuiltin then s.name else "func." ++ s.name

namespace Literal

def lower : Literal → Lower Code
  | int value => do
    let push ← perform (.pushWord .t0)
    return .instr (.constant .t0 value.toInt) :: push
  | bool value => do
    let push ← perform (.pushWord .t0)
    return .instr (.constant .t0 (if value then 1 else 0)) :: push
  | float value => do
    let push ← perform (.pushSingle .f0)
    return .instr (.singleConstant .f0 value) :: push

end Literal

namespace BinaryOp

def wordOp : BinaryOp → WordOp
  | add => .add
  | sub => .sub
  | mul => .mul
  | div => .div
  | and => .and
  | or => .or
  | compare .ge => .sge
  | compare .le => .sle
  | compare .ne => .sne
  | compare .eq => .seq
  | compare .gt => .sgt
  | compare .lt => .slt

end BinaryOp

namespace Comparison

/-- The test behind a comparison, on `$f0` and `$f1` in this order or the other, and the value of
the flag for which the comparison holds. -/
def test : Comparison → SingleTest × Reg × Reg × Bool
  | lt => (.lt, .f0, .f1, true)
  | le => (.le, .f0, .f1, true)
  | gt => (.lt, .f1, .f0, true)
  | ge => (.le, .f1, .f0, true)
  | eq => (.eq, .f0, .f1, true)
  | ne => (.eq, .f0, .f1, false)

end Comparison

namespace Body

def combineWords (op : WordOp) : Lower Code := do
  let right ← perform (.popWord .t1)
  let left ← perform (.popWord .t0)
  let push ← perform (.pushWord .t2)
  return right ++ left ++ .instr (.word op .t2 .t0 .t1) :: push

def combineSingles (op : SingleOp) : Lower Code := do
  let right ← perform (.popSingle .f1)
  let left ← perform (.popSingle .f0)
  let push ← perform (.pushSingle .f2)
  return right ++ left ++ .instr (.single op .f2 .f0 .f1) :: push

def compareSingles (body : Body) (comparison : Comparison) : Lower Code := do
  let right ← perform (.popSingle .f1)
  let left ← perform (.popSingle .f0)
  let done ← body.requestLabel "compare"
  let push ← perform (.pushWord .t0)
  let (op, first, second, flag) := comparison.test
  return right ++ left ++
    [.instr (.testSingle op first second), .instr (.constant .t0 1),
      .instr (.branchFlag flag done), .instr (.constant .t0 0), .label done] ++ push

def combine (body : Body) (pos : Position) (op : BinaryOp) (operand : Ty) : Lower Code :=
  if operand.isFloat then
    match op with
    | .add => combineSingles .add
    | .sub => combineSingles .sub
    | .mul => combineSingles .mul
    | .div => combineSingles .div
    | .compare comparison => body.compareSingles comparison
    | .and => Lower.refuse (.invalidOperand pos .combine operand)
    | .or => Lower.refuse (.invalidOperand pos .combine operand)
  else combineWords op.wordOp

def load (pos : Position) (ty : Ty) : Lower Code := do
  let pop ← perform (.popWord .t0)
  match ty with
  | .float =>
    let push ← perform (.pushSingle .f0)
    return pop ++ .instr (.loadSingle .f0 0 .t0) :: push
  | .int | .bool =>
    let push ← perform (.pushWord .t0)
    return pop ++ .instr (.loadWord .t0 0 .t0) :: push
  | _ => Lower.refuse (.invalidOperand pos .load ty)

def elementSize (pos : Position) : Ty → Lower Nat
  | .address element => Lower.ofExcept (sizeAt pos element)
  | ty => Lower.refuse (.invalidOperand pos .index ty)

def select (size : Nat) : Lower Code := do
  let offset ← perform (.popWord .t1)
  let base ← perform (.popWord .t0)
  let push ← perform (.pushWord .t0)
  return offset ++ base ++
    [.instr (.constant .t2 size), .instr (.word .mul .t1 .t1 .t2),
      .instr (.word .add .t0 .t0 .t1)] ++ push

def invert : Lower Code := do
  let pop ← perform (.popWord .t0)
  let push ← perform (.pushWord .t0)
  return pop ++ .instr (.immediate .xori .t0 .t0 1) :: push

def pushAddress (body : Body) (pos : Position) (id : SymbolId) : Lower Code := do
  match body.storage.addressInstr? .t0 id with
  | some load =>
    let push ← perform (.pushWord .t0)
    return .instr load :: push
  | none => Lower.refuse (.unbound pos (body.env.symbols.get id).name)

/-- The jump to a callee whose arguments fill `words` words of the stack. -/
def jumpTo (body : Body) (callee : SymbolId) (words : Nat) : Lower Code := do
  let symbol := body.env.symbols.get callee
  let release ← perform (.drop words)
  let push ← performIf symbol.ty.yieldsWord (.pushWord .v0)
  return .instr (.jumpLink (symbol.callLabel body.env.entry)) :: (release ++ push)

end Body

mutual

def Expr.lower (body : Body) : Expr → Lower Code
  | .literal _ value => value.lower
  | .address node symbol => body.pushAddress node.pos symbol
  | .deref node operand => do
    let place ← operand.lower body
    let ty ← body.env.typeOf node
    let load ← Body.load node.pos ty
    return place ++ load
  | .index node base offset => do
    let ty ← body.env.typeOf node
    let size ← Body.elementSize node.pos ty
    let baseCode ← base.lower body
    let offsetCode ← offset.lower body
    let select ← Body.select size
    return baseCode ++ offsetCode ++ select
  | .binary node op left right => do
    let leftCode ← left.lower body
    let rightCode ← right.lower body
    let operand ← body.env.typeOf left.node
    let combine ← body.combine node.pos op operand
    return leftCode ++ rightCode ++ combine
  | .not _ operand => do
    let code ← operand.lower body
    let invert ← Body.invert
    return code ++ invert
  | .call _ callee args => do
    let (code, words) ← Expr.lowerAll body args
    let jump ← body.jumpTo callee words
    return code ++ jump

def Expr.lowerAll (body : Body) : List Expr → Lower (Code × Nat)
  | [] => return ([], 0)
  | e :: es => do
    let code ← e.lower body
    let ty ← body.env.typeOf e.node
    let bytes ← Lower.ofExcept (sizeAt e.node.pos ty)
    let (rest, words) ← Expr.lowerAll body es
    return (code ++ rest, bytes / wordBytes + words)

end

end MipsCompiler
