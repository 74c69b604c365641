import MipsCompiler.Proofs.Accepted
import MipsCompiler.Proofs.Lowering.Coincidence
import MipsCompiler.Proofs.TokenSources

set_option autoImplicit false

/-!
# Positions make no difference

Two lists of tokens that differ in positions only compile to the same program, or fail at the same
stage for the same causes. Both are compared with the list in which all positions are erased.

A refused name leaves an error symbol behind, whose type is the text of the diagnostic with its
position. From then on the symbols of two parses may differ in more than positions, but not in number,
and nothing is checked or lowered any more.
-/

namespace MipsCompiler

open TokenStream (Agree)
open SymbolTable (Coincide)

def Position.erase (_ : Position) : Position := Position.nowhere

/-- A diagnostic without its position, and without the scopes, whose types can hold positions. -/
def Diagnostic.unplaced : Diagnostic → Diagnostic
  | .unexpected _ expected found => .unexpected Position.nowhere expected found
  | .redeclared _ name _ => .redeclared Position.nowhere name ""
  | .unresolved _ name _ => .unresolved Position.nowhere name ""
  | .mistyped _ message => .mistyped Position.nowhere message
  | .unlowered _ message => .unlowered Position.nowhere message

def CompileFailure.unplaced : CompileFailure → CompileFailure
  | .parse log => .parse (log.map Diagnostic.unplaced)
  | .check log => .check (log.map Diagnostic.unplaced)
  | .lower fault => .lower (fault.move Position.erase)

theorem Diagnostic.unplaced_move (place : Position → Position) (d : Diagnostic) :
    (d.move place).unplaced = d.unplaced := by
  cases d <;> rfl

theorem Fault.erase_erase (fault : Fault) :
    (fault.move Position.erase).move Position.erase = fault.move Position.erase := by
  cases fault with
  | refused refusal => cases refusal <;> rfl
  | stack | unbalanced => rfl

/-! ## Scopes -/

/-- The second scope and log belong to the same program without positions. -/
structure Scope.Erased (s : Scope) (log : Log) (t : Scope) (other : Log) : Prop where
  current : t.current = s.current
  outer : t.outer = s.outer
  size : t.symbols.length = s.symbols.length
  causes : other.map Diagnostic.unplaced = log.map Diagnostic.unplaced
  symbols : log = [] → t.symbols = s.symbols.map (Symbol.move Position.erase)

theorem SymbolTable.get_erased (symbols : SymbolTable) (id : SymbolId) :
    SymbolTable.get (symbols.map (Symbol.move Position.erase)) id =
      (symbols.get id).move Position.erase := by
  simp only [get, List.getD_eq_getElem?_getD, List.getElem?_map]
  cases symbols[id]? <;> rfl

theorem Symbol.retype_move (place : Position → Position) (symbol : Symbol) (ty : Ty) :
    (symbol.move place).retype ty = (symbol.retype ty).move place := by
  change (if symbol.isError then _ else _) = Symbol.move place (if symbol.isError then _ else _)
  split <;> rfl

theorem SymbolTable.retype_erased (symbols : SymbolTable) (id : SymbolId) (ty : Ty) :
    SymbolTable.retype (symbols.map (Symbol.move Position.erase)) id ty =
      (symbols.retype id ty).map (Symbol.move Position.erase) := by
  refine List.ext_getElem? fun i => ?_
  simp only [retype, List.getElem?_map, List.getElem?_modify]
  cases symbols[i]? with
  | none => rfl
  | some symbol => by_cases hi : id = i <;> simp [hi, Symbol.retype_move]

namespace Scope.Erased

variable {s t : Scope} {log other : Log}

theorem find?_eq (h : Erased s log t other) (name : String) : t.find? name = s.find? name := by
  simp only [find?, frames, h.current, h.outer]

theorem refuse (h : Erased s log t other) (frame : Frame) (symbol symbol' : Symbol)
    {d d' : Diagnostic} (hd : d'.unplaced = d.unplaced) :
    Erased ⟨frame, s.outer, s.symbols ++ [symbol]⟩ (log ++ [d])
      ⟨frame, t.outer, t.symbols ++ [symbol']⟩ (other ++ [d']) where
  current := rfl
  outer := h.outer
  size := by simp [h.size]
  causes := by simp [h.causes, hd]
  symbols hlog := by simp at hlog

theorem bind (h : Erased s log t other) (symbol : Symbol) :
    Erased (s.bind symbol) log (t.bind (symbol.move Position.erase)) other where
  current := by simp [Scope.bind, h.current, h.size]
  outer := h.outer
  size := by simp [Scope.bind, h.size]
  causes := h.causes
  symbols hlog := by simp [Scope.bind, h.symbols hlog]

theorem declare (h : Erased s log t other) (symbol : Symbol) :
    Scope.Answer.Same Erased log other (s.declare symbol)
      (t.declare (symbol.move Position.erase)) := by
  simp only [Scope.declare, Symbol.move_name, h.current, h.size]
  split
  · exact ⟨rfl, by simpa using h.bind symbol⟩
  · exact ⟨rfl, h.refuse _ _ _ rfl⟩

theorem resolve (h : Erased s log t other) (name : String) (pos : Position) :
    Scope.Answer.Same Erased log other (s.resolve name pos) (t.resolve name pos.erase) := by
  simp only [Scope.resolve, h.find?_eq]
  split
  · exact ⟨rfl, by simpa using h⟩
  · exact ⟨h.size, h.current ▸ h.refuse _ _ _ rfl⟩

theorem retype (h : Erased s log t other) (id : SymbolId) {ty ty' : Ty}
    (hty : log = [] → ty' = ty) : Erased (s.retype id ty) log (t.retype id ty') other where
  current := h.current
  outer := h.outer
  size := by simp [Scope.retype, SymbolTable.retype, h.size]
  causes := h.causes
  symbols hlog := by
    simp only [Scope.retype, h.symbols hlog, hty hlog, SymbolTable.retype_erased]

theorem enter (h : Erased s log t other) : Erased s.enter log t.enter other where
  current := by simp only [Scope.enter, Scope.depth, h.current]
  outer := by simp only [Scope.enter, h.current, h.outer]
  size := h.size
  causes := h.causes
  symbols := h.symbols

theorem exit (h : Erased s log t other) : Erased s.exit log t.exit other := by
  unfold Scope.exit
  rw [h.outer]
  split
  · exact h
  · exact ⟨rfl, rfl, h.size, h.causes, h.symbols⟩

end Scope.Erased

def Correspondence.erased : Correspondence where
  place := Position.erase
  holds := Scope.Erased
  initial := ⟨rfl, rfl, rfl, rfl, fun _ => rfl⟩
  declare := Scope.Erased.declare
  resolve := Scope.Erased.resolve
  retype h id _ := h.retype id fun _ => rfl
  retypeFunction h id params result := by
    refine h.retype id fun hlog => ?_
    simp only [Scope.symbol, h.symbols hlog, SymbolTable.get_erased, Symbol.move_ty]
  enter := Scope.Erased.enter
  exit := Scope.Erased.exit

/-! ## Parses -/

structure Parsed.Erased (p q : Parsed) : Prop where
  nodeCount : q.nodeCount = p.nodeCount
  causes : q.log.map Diagnostic.unplaced = p.log.map Diagnostic.unplaced
  tree : p.log = [] → ∃ node decls, p.tree = .program node decls ∧
    q.tree = (Tree.program node decls).move Position.erase
  symbols : p.log = [] → q.symbols = p.symbols.map (Symbol.move Position.erase)

section

variable {σ τ : Type} [TokenStream σ] [TokenStream τ] {stream : σ} {other : τ}

theorem parse_erased (h : ∀ k, Agree Position.erase k stream other) :
    (parse stream).Erased (parse other) := by
  have halike (k : Nat) : ParseState.Alike .erased k (.start stream) (.start other) :=
    ⟨h k, rfl, Correspondence.erased.initial⟩
  cases hrun : Parser.program (.start stream) with
  | ok tree s =>
    obtain ⟨t, hother, hcount, hnames⟩ := Parser.program_ok_level halike hrun
    obtain ⟨decls, u, _, _, rfl, _⟩ := Parser.program_ok.1 hrun
    rw [parse_of_ok hrun, parse_of_ok hother]
    exact ⟨hcount, hnames.causes, fun _ => ⟨_, decls, rfl, rfl⟩, hnames.symbols⟩
  | error d s =>
    obtain ⟨t, hother, hcount, hnames⟩ := Parser.program_error_level halike hrun
    have hcauses : (t.log ++ [d.move Position.erase]).map Diagnostic.unplaced =
        (s.log ++ [d]).map Diagnostic.unplaced := by
      simp [hnames.causes, Diagnostic.unplaced_move]
    have hlog : s.log ++ [d] ≠ [] := by simp
    rw [parse_of_error hrun, parse_of_error hother]
    exact ⟨congrArg (· + 1) hcount, hcauses, fun h => absurd h hlog, fun h => absurd h hlog⟩

/-! ## Compilations -/

theorem compile_unparsed {options : Options} (h : (parse stream).log ≠ []) :
    compile stream options = .error (.parse (parse stream).log) := by
  simp [compile, h]

theorem compile_unchecked {options : Options} (hparse : (parse stream).log = [])
    (h : (check (parse stream).symbols options.entry (parse stream).tree).log ≠ []) :
    compile stream options =
      .error (.check (check (parse stream).symbols options.entry (parse stream).tree).log) := by
  simp [compile, hparse, h]

theorem compile_checked {options : Options} (hparse : (parse stream).log = [])
    (hcheck : (check (parse stream).symbols options.entry (parse stream).tree).log = []) :
    compile stream options =
      if options.checkOnly then .ok ⟨none, (parse stream).nodeCount⟩
      else
        match (Environment.ofStream stream options.entry).lower (parse stream).tree with
        | .ok program => .ok ⟨some program.text, (parse stream).nodeCount⟩
        | .error fault => .error (.lower fault) := by
  unfold compile
  simp only [hparse, hcheck]
  rfl

theorem compile_erased (h : (parse stream).Erased (parse other)) (options : Options) :
    (compile other options).mapError CompileFailure.unplaced =
      (compile stream options).mapError CompileFailure.unplaced := by
  -- Both compilations fail at the same stage, or at none.
  have hcauses := h.causes
  by_cases hlog : (parse stream).log = []
  case neg =>
    have hother : (parse other).log ≠ [] := by
      intro hnil
      simp [hnil, hlog] at hcauses
    rw [compile_unparsed hlog, compile_unparsed hother]
    simp only [mapError_error, CompileFailure.unplaced, hcauses]
  have hother : (parse other).log = [] := by simpa [hlog] using hcauses
  obtain ⟨node, decls, htree, htree'⟩ := h.tree hlog
  have hcoincide : ∀ decl ∈ decls,
      Coincide Position.erase (parse stream).symbols (parse other).symbols decl.uses := by
    intro decl _ id _
    rw [h.symbols hlog, SymbolTable.get_erased]
  obtain ⟨htypes, hreports⟩ := check_move options.entry hcoincide
  rw [← htree', ← htree] at htypes hreports
  by_cases hcheck : (check (parse stream).symbols options.entry (parse stream).tree).log = []
  case neg =>
    have hcheck' : (check (parse other).symbols options.entry (parse other).tree).log ≠ [] := by
      simpa [hreports] using hcheck
    rw [compile_unchecked hlog hcheck, compile_unchecked hother hcheck', hreports]
    simp [mapError_error, CompileFailure.unplaced, Diagnostic.unplaced_move]
  have hcheck' : (check (parse other).symbols options.entry (parse other).tree).log = [] := by
    simpa [hreports] using hcheck
  have hlower : (Environment.ofStream other options.entry).lower (parse other).tree =
      ((Environment.ofStream stream options.entry).lower (parse stream).tree).mapError
        (Fault.move Position.erase) := by
    have hentry : (Environment.ofStream other options.entry).entry =
        (Environment.ofStream stream options.entry).entry := rfl
    rw [htree, htree']
    refine Environment.lower_move hentry hcoincide fun decl _ e _ => ?_
    simp only [Environment.ofStream, htypes]
  rw [compile_checked hlog hcheck, compile_checked hother hcheck', h.nodeCount, hlower]
  cases options.checkOnly with
  | true => rfl
  | false =>
    cases (Environment.ofStream stream options.entry).lower (parse stream).tree with
    | ok program => rfl
    | error fault => simp [mapError_error, CompileFailure.unplaced, Fault.erase_erase]

end

theorem agree_erased (tokens : List Token) (finish : Position) (k : Nat) :
    Agree Position.erase k (⟨tokens, finish⟩ : TokenQueue)
      (⟨tokens.map (Token.move Position.erase), Position.nowhere⟩ : TokenQueue) := by
  have hend : Agree Position.erase k (⟨[], finish⟩ : TokenQueue)
      (⟨[], Position.nowhere⟩ : TokenQueue) := .last rfl rfl
  have hagree := (TokenQueue.agree_append tokens hend).mono (Nat.le_add_left k _)
  rwa [List.append_nil, List.append_nil] at hagree

theorem compileTokens_erased (tokens : List Token) (options : Options) :
    (compile (TokenQueue.mk (tokens.map (Token.move Position.erase)) Position.nowhere)
        options).mapError CompileFailure.unplaced =
      (compileTokens tokens options).mapError CompileFailure.unplaced :=
  compile_erased (parse_erased (agree_erased tokens _)) options

/-- Lists of tokens with the same kinds and lexemes compile to the same assembly with the same number
of nodes, or fail at the same stage with the same diagnostics but for positions. -/
theorem compile_ignores_positions {tokens others : List Token} (options : Options)
    (h : tokens.map (fun token => (token.kind, token.lexeme)) =
      others.map (fun token => (token.kind, token.lexeme))) :
    (compileTokens tokens options).mapError CompileFailure.unplaced =
      (compileTokens others options).mapError CompileFailure.unplaced := by
  have herased : tokens.map (Token.move Position.erase) =
      others.map (Token.move Position.erase) := by
    have hplaced := congrArg (List.map fun pair => Token.mk pair.1 pair.2 Position.nowhere) h
    rw [List.map_map, List.map_map] at hplaced
    exact hplaced
  rw [← compileTokens_erased tokens, ← compileTokens_erased others, herased]

/-- The second parameter is refused, and the scopes shown for the call hold its position. -/
theorem reformatted_call_fails_alike :
    (compileTokens (tokensOf "func f(x : int, x : int) : void \x7b ::g(); \x7d") {}).mapError
        CompileFailure.unplaced =
      (compileTokens (tokensOf "func f(x:int,\n  x:int):void // twice\n\x7b\n ::g();\n\x7d")
        {}).mapError CompileFailure.unplaced :=
  compile_ignores_positions {} (by decide +kernel)

end MipsCompiler
