import MipsCompiler.Lowering.Statement

set_option autoImplicit false

/-!
# Lowering programs

A function's code starts at its label with the prologue and ends at its end label, where a value
that was returned is put into `$v0` and the frame is removed. The entry point ends the program
instead. Declarations are lowered in order, each with the globals before it in reach.
-/

namespace MipsCompiler

/-- What lowering a declaration adds to a program. -/
structure Segments where
  data : List DataLine
  code : Code

namespace Segments

def empty : Segments := ⟨[], []⟩

def append (first second : Segments) : Segments :=
  ⟨first.data ++ second.data, first.code ++ second.code⟩

end Segments

namespace Environment

def ending (env : Environment) (symbol : Symbol) (locals : Nat) : Code :=
  if symbol.name = env.entry then Code.exit
  else (if symbol.ty.yieldsWord then Code.retrieve .v0 else []) ++ Code.epilogue locals

def lowerFunction (env : Environment) (storage : Storage) (definition : FuncDef) :
    Lower Code := do
  let symbol := env.symbols.get definition.symbol
  let start ← Lower.requestLabel (symbol.codeLabel env.entry)
  let finish ← Lower.requestLabel (start ++ ".end")
  let frame ← Lower.ofExcept (StackFrame.ofFunction env.symbols definition)
  let code ← definition.body.lower ⟨env, storage.enter frame, symbol.name, finish⟩
  return .label start :: Code.prologue frame.localBytes ++ code ++
    .label finish :: env.ending symbol frame.localBytes

def reserveGlobal (env : Environment) (storage : Storage) (decl : VarDecl) :
    Lower (DataLine × Storage) := do
  let s ← get
  let reservation ← Lower.ofExcept (storage.reserve env.symbols s.labels decl)
  set { s with labels := reservation.labels }
  return (reservation.line, reservation.storage)

def lowerDecl (env : Environment) (storage : Storage) : Decl → Lower (Segments × Storage)
  | .var decl => do
    let (line, storage) ← env.reserveGlobal storage decl
    return (⟨[line], []⟩, storage)
  | .array decl => do
    let (line, storage) ← env.reserveGlobal storage decl
    return (⟨[line], []⟩, storage)
  | .func definition => do
    let code ← env.lowerFunction storage definition
    return (⟨[], code⟩, storage)

def lowerDecls (env : Environment) : Storage → List Decl → Lower Segments
  | _, [] => return Segments.empty
  | storage, decl :: decls => do
    let (first, storage) ← env.lowerDecl storage decl
    let rest ← env.lowerDecls storage decls
    return first.append rest

def lower (env : Environment) : Tree → Except Fault Program
  | .error node message => .error (.refused (.errorNode node.pos message))
  | .program _ decls =>
    match (env.lowerDecls Storage.empty decls).run LowerState.initial with
    | .ok segments s => .ok ⟨segments.data, segments.code, s.labels, s.depth⟩
    | .error fault _ => .error fault

end Environment

end MipsCompiler
