import MipsCompiler.Lowering.Program
import MipsCompiler.Parser.Program
import MipsCompiler.Typing.Program

set_option autoImplicit false

/-!
# Compilation

Parsing, checking and lowering in a row. A stage whose log is not empty is the last.
-/

namespace MipsCompiler

structure Options where
  entry : String := "main"
  checkOnly : Bool := false

structure Compiled where
  assembly : Option String
  nodeCount : Nat

inductive CompileFailure where
  | parse (log : Log)
  | check (log : Log)
  | lower (fault : Fault)

def compile {σ : Type} [TokenStream σ] (stream : σ) (options : Options) :
    Except CompileFailure Compiled :=
  let parsed := parse stream
  if !parsed.log.isEmpty then .error (.parse parsed.log)
  else
    let checked := check parsed.symbols options.entry parsed.tree
    if !checked.log.isEmpty then .error (.check checked.log)
    else if options.checkOnly then .ok ⟨none, parsed.nodeCount⟩
    else
      match (Environment.mk parsed.symbols checked.types options.entry).lower parsed.tree with
      | .ok program => .ok ⟨some program.text, parsed.nodeCount⟩
      | .error fault => .error (.lower fault)

def compileText (source : String) (options : Options) : Except CompileFailure Compiled :=
  compile (Scanner.ofText source) options

def compileTokens (tokens : List Token) (options : Options) :
    Except CompileFailure Compiled :=
  compile (TokenQueue.ofTokens tokens) options

end MipsCompiler
