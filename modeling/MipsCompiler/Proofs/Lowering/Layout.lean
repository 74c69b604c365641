import MipsCompiler.Proofs.Lowering.Step

set_option autoImplicit false

/-!
# The layout of a program

The code of a program is the code of its functions, in their order. A `CompiledFunction` is one of
them, with everything that its lowering depended on: the declarations before it, and the storage and
the labels that they left.
-/

namespace MipsCompiler

namespace Segments

theorem append_assoc (a b c : Segments) : (a.append b).append c = a.append (b.append c) := by
  simp [append]

end Segments

def Symbol.dataLabel (s : Symbol) : String :=
  "cruxdata." ++ s.name

def Storage.withGlobal (storage : Storage) (id : SymbolId) (label : String) : Storage :=
  { storage with globals := (id, label) :: storage.globals }

theorem Storage.reserve_ok {storage : Storage} {symbols : SymbolTable} {labels : LabelSupply}
    {decl : VarDecl} {reservation : Reservation} :
    storage.reserve symbols labels decl = .ok reservation ↔
      ∃ bytes, (symbols.get decl.symbol).ty.size? = some bytes ∧
        reservation = ⟨.space (labels.request (symbols.get decl.symbol).dataLabel).1 bytes,
          storage.withGlobal decl.symbol (labels.request (symbols.get decl.symbol).dataLabel).1,
          (labels.request (symbols.get decl.symbol).dataLabel).2⟩ := by
  cases hsize : (symbols.get decl.symbol).ty.size? with
  | none =>
    simp only [reserve, sizeAt, hsize]
    constructor
    · intro h
      nomatch h
    · rintro ⟨_, h, _⟩
      nomatch h
  | some bytes =>
    simp only [reserve, sizeAt, hsize, Option.some.injEq, exists_eq_left']
    exact ⟨fun h => (Except.ok.inj h).symm, fun h => congrArg Except.ok h.symm⟩

namespace Environment

variable {env : Environment} {storage : Storage} {s t : LowerState} {segments : Segments}

/-- Lowers declarations, and gives the storage behind them too. -/
def lowerOnto (env : Environment) : Storage → List Decl → Lower (Segments × Storage)
  | storage, [] => return (Segments.empty, storage)
  | storage, decl :: decls => do
    let (first, storage) ← env.lowerDecl storage decl
    let (rest, storage) ← env.lowerOnto storage decls
    return (first.append rest, storage)

theorem lowerOnto_nil_ok {storage' : Storage} :
    env.lowerOnto storage [] s = .ok (segments, storage') t ↔
      segments = .empty ∧ storage' = storage ∧ t = s := by
  simp only [lowerOnto, pure_ok, Prod.mk.injEq, and_assoc]

theorem lowerOnto_cons_ok {decl : Decl} {decls : List Decl} {storage'' : Storage} :
    env.lowerOnto storage (decl :: decls) s = .ok (segments, storage'') t ↔
      ∃ first storage' u rest, env.lowerDecl storage decl s = .ok (first, storage') u ∧
        env.lowerOnto storage' decls u = .ok (rest, storage'') t ∧
        segments = first.append rest := by
  simp only [lowerOnto, bind_ok, pure_ok, Prod.mk.injEq, Prod.exists]
  constructor
  · rintro ⟨first, storage', u, hfirst, rest, storage₂, v, hrest, ⟨rfl, rfl⟩, rfl⟩
    exact ⟨first, storage', u, rest, hfirst, hrest, rfl⟩
  · rintro ⟨first, storage', u, rest, hfirst, hrest, rfl⟩
    exact ⟨first, storage', u, hfirst, rest, storage'', t, hrest, ⟨rfl, rfl⟩, rfl⟩

theorem lowerDecls_ok {decls : List Decl} :
    env.lowerDecls storage decls s = .ok segments t ↔
      ∃ storage', env.lowerOnto storage decls s = .ok (segments, storage') t := by
  induction decls generalizing storage s segments t with
  | nil => simp [lowerDecls, lowerOnto_nil_ok, pure_ok]
  | cons decl decls ih =>
    simp only [lowerDecls, bind_ok, pure_ok, Prod.exists, lowerOnto_cons_ok, ih]
    constructor
    · rintro ⟨first, storage', u, hfirst, rest, v, ⟨storage'', hrest⟩, rfl, rfl⟩
      exact ⟨storage'', first, storage', u, rest, hfirst, hrest, rfl⟩
    · rintro ⟨storage'', first, storage', u, rest, hfirst, hrest, rfl⟩
      exact ⟨first, storage', u, hfirst, rest, t, ⟨storage'', hrest⟩, rfl, rfl⟩

theorem lowerOnto_append_ok {before after : List Decl} {storage'' : Storage} :
    env.lowerOnto storage (before ++ after) s = .ok (segments, storage'') t ↔
      ∃ first storage' u rest, env.lowerOnto storage before s = .ok (first, storage') u ∧
        env.lowerOnto storage' after u = .ok (rest, storage'') t ∧
        segments = first.append rest := by
  induction before generalizing storage s segments with
  | nil =>
    simp only [List.nil_append, lowerOnto_nil_ok]
    constructor
    · intro h
      exact ⟨_, _, _, _, ⟨rfl, rfl, rfl⟩, h, rfl⟩
    · rintro ⟨_, _, _, rest, ⟨rfl, rfl, rfl⟩, h, rfl⟩
      exact h
  | cons decl before ih =>
    simp only [List.cons_append, lowerOnto_cons_ok, ih]
    constructor
    · rintro ⟨first, storage', u, _, hfirst, ⟨middle, storage₂, v, rest, hmiddle, hrest, rfl⟩, rfl⟩
      exact ⟨_, storage₂, v, rest, ⟨first, storage', u, middle, hfirst, hmiddle, rfl⟩, hrest,
        (Segments.append_assoc _ _ _).symm⟩
    · rintro ⟨_, storage₂, v, rest, ⟨first, storage', u, middle, hfirst, hmiddle, rfl⟩, hrest, rfl⟩
      exact ⟨first, storage', u, _, hfirst, ⟨middle, storage₂, v, rest, hmiddle, hrest, rfl⟩,
        Segments.append_assoc _ _ _⟩

theorem lower_ok {node : Node} {decls : List Decl} {program : Program} :
    env.lower (.program node decls) = .ok program ↔
      ∃ segments storage t,
        env.lowerOnto Storage.empty decls LowerState.initial = .ok (segments, storage) t ∧
        program = ⟨segments.data, segments.code, t.labels, t.depth⟩ := by
  unfold lower
  constructor
  · intro h
    cases hrun : (env.lowerDecls Storage.empty decls).run LowerState.initial with
    | ok segments t =>
      simp only [hrun] at h
      obtain ⟨storage, hlower⟩ := lowerDecls_ok.1 hrun
      exact ⟨segments, storage, t, hlower, (Except.ok.inj h).symm⟩
    | error fault t =>
      simp only [hrun] at h
      nomatch h
  · rintro ⟨segments, storage, t, hlower, rfl⟩
    have hrun : (env.lowerDecls Storage.empty decls).run LowerState.initial = .ok segments t :=
      lowerDecls_ok.2 ⟨storage, hlower⟩
    simp only [hrun]

theorem reserveGlobal_ok {decl : VarDecl} {line : DataLine} {storage' : Storage} :
    env.reserveGlobal storage decl s = .ok (line, storage') t ↔
      ∃ bytes, (env.symbols.get decl.symbol).ty.size? = some bytes ∧
        line = .space (s.label (env.symbols.get decl.symbol).dataLabel) bytes ∧
        storage' = storage.withGlobal decl.symbol
          (s.label (env.symbols.get decl.symbol).dataLabel) ∧
        t = s.request (env.symbols.get decl.symbol).dataLabel := by
  simp only [reserveGlobal, bind_ok, get_ok, Lower.ofExcept_ok, set_ok, pure_ok, Prod.mk.injEq,
    Storage.reserve_ok, and_assoc, exists_and_left, exists_eq_left, exists_const]
  constructor
  · rintro ⟨_, ⟨bytes, hbytes, rfl⟩, rfl, rfl, rfl⟩
    exact ⟨bytes, hbytes, rfl, rfl, rfl⟩
  · rintro ⟨bytes, hbytes, rfl, rfl, rfl⟩
    exact ⟨_, ⟨bytes, hbytes, rfl⟩, rfl, rfl, rfl⟩

theorem lowerDecl_var_ok {decl : VarDecl} {storage' : Storage} :
    env.lowerDecl storage (.var decl) s = .ok (segments, storage') t ↔
      ∃ line, env.reserveGlobal storage decl s = .ok (line, storage') t ∧
        segments = ⟨[line], []⟩ := by
  simp only [lowerDecl, bind_ok, pure_ok, Prod.mk.injEq, Prod.exists]
  constructor
  · rintro ⟨line, storage₁, u, hline, ⟨rfl, rfl⟩, rfl⟩
    exact ⟨line, hline, rfl⟩
  · rintro ⟨line, hline, rfl⟩
    exact ⟨line, storage', t, hline, ⟨rfl, rfl⟩, rfl⟩

theorem lowerDecl_func_ok {definition : FuncDef} {storage' : Storage} :
    env.lowerDecl storage (.func definition) s = .ok (segments, storage') t ↔
      ∃ code, env.lowerFunction storage definition s = .ok code t ∧ segments = ⟨[], code⟩ ∧
        storage' = storage := by
  simp only [lowerDecl, bind_ok, pure_ok, Prod.mk.injEq]
  constructor
  · rintro ⟨code, u, hcode, ⟨rfl, rfl⟩, rfl⟩
    exact ⟨code, hcode, rfl, rfl⟩
  · rintro ⟨code, hcode, rfl, rfl⟩
    exact ⟨code, t, hcode, ⟨rfl, rfl⟩, rfl⟩

end Environment

/-- The point of a program at which a function is lowered. -/
structure FunctionSite (env : Environment) where
  definition : FuncDef
  storage : Storage
  state : LowerState
  frame : StackFrame

namespace FunctionSite

variable {env : Environment} (f : FunctionSite env)

def symbol : Symbol :=
  env.symbols.get f.definition.symbol

def start : String :=
  f.state.label (f.symbol.codeLabel env.entry)

/-- The label that its returns jump to. -/
def finish : String :=
  (f.state.request (f.symbol.codeLabel env.entry)).label (f.start ++ ".end")

def body : Body :=
  ⟨env, f.storage.enter f.frame, f.symbol.name, f.finish⟩

def inside : LowerState :=
  (f.state.request (f.symbol.codeLabel env.entry)).request (f.start ++ ".end")

/-- The lines up to the body, and the lines behind it. -/
def opening : Code :=
  .label f.start :: Code.prologue f.frame.localBytes

def closing : Code :=
  .label f.finish :: env.ending f.symbol f.frame.localBytes

theorem lowerFunction_ok {storage : Storage} {definition : FuncDef} {s t : LowerState}
    {code : Code} :
    env.lowerFunction storage definition s = .ok code t ↔
      ∃ (f : FunctionSite env) (inner : Code), f.definition = definition ∧ f.storage = storage ∧
        f.state = s ∧ StackFrame.ofFunction env.symbols definition = .ok f.frame ∧
        definition.body.lower f.body f.inside = .ok inner t ∧
        code = f.opening ++ inner ++ f.closing := by
  simp only [Environment.lowerFunction, bind_ok, Lower.requestLabel_ok, Lower.ofExcept_ok, pure_ok,
    and_assoc, exists_and_left, exists_eq_left]
  constructor
  · rintro ⟨frame, hframe, inner, u, hbody, rfl, rfl⟩
    exact ⟨⟨definition, storage, s, frame⟩, rfl, rfl, rfl, hframe, inner, hbody, rfl⟩
  · rintro ⟨f, rfl, rfl, rfl, hframe, inner, hbody, rfl⟩
    exact ⟨f.frame, hframe, inner, t, hbody, rfl, rfl⟩

end FunctionSite

/-- A function of a program, with the code of its body. -/
structure CompiledFunction (env : Environment) (decls : List Decl) extends FunctionSite env where
  before : List Decl
  after : List Decl
  ahead : Segments
  code : Code
  behind : LowerState
  split : decls = before ++ .func definition :: after
  reached : env.lowerOnto Storage.empty before LowerState.initial = .ok (ahead, storage) state
  framed : StackFrame.ofFunction env.symbols definition = .ok frame
  lowered : definition.body.lower toFunctionSite.body toFunctionSite.inside = .ok code behind

namespace CompiledFunction

variable {env : Environment} {node : Node} {decls : List Decl} {program : Program}

def lines (f : CompiledFunction env decls) : Code :=
  f.opening ++ f.code ++ f.closing

theorem mem (f : CompiledFunction env decls) : .func f.definition ∈ decls := by
  have h : Decl.func f.definition ∈ f.before ++ .func f.definition :: f.after := by simp
  exact (congrArg (Decl.func f.definition ∈ ·) f.split).mpr h

theorem exists_of_lower (h : env.lower (.program node decls) = .ok program) {definition : FuncDef}
    (hmem : .func definition ∈ decls) :
    ∃ f : CompiledFunction env decls, f.definition = definition := by
  obtain ⟨before, after, hsplit⟩ := List.append_of_mem hmem
  obtain ⟨segments, storage, t, hlower, _⟩ := Environment.lower_ok.1 h
  rw [hsplit] at hlower
  obtain ⟨ahead, storage', s, rest, hbefore, hrest, _⟩ := Environment.lowerOnto_append_ok.1 hlower
  obtain ⟨own, _, u, _, hown, _, _⟩ := Environment.lowerOnto_cons_ok.1 hrest
  obtain ⟨code, hcode, _, _⟩ := Environment.lowerDecl_func_ok.1 hown
  obtain ⟨f, inner, rfl, rfl, rfl, hframe, hbody, _⟩ := FunctionSite.lowerFunction_ok.1 hcode
  exact ⟨⟨f, before, after, ahead, inner, u, hsplit, hbefore, hframe, hbody⟩, rfl⟩

theorem placed (h : env.lower (.program node decls) = .ok program)
    (f : CompiledFunction env decls) :
    ∃ rest storage t, env.lowerOnto f.storage f.after f.behind = .ok (rest, storage) t ∧
      program = ⟨f.ahead.data ++ rest.data, f.ahead.code ++ f.lines ++ rest.code, t.labels,
        t.depth⟩ := by
  obtain ⟨segments, storage, t, hlower, rfl⟩ := Environment.lower_ok.1 h
  rw [f.split] at hlower
  obtain ⟨ahead, storage', s, tail, hbefore, htail, rfl⟩ :=
    Environment.lowerOnto_append_ok.1 hlower
  obtain ⟨hpair, rfl⟩ := result_ok.1 (f.reached.symm.trans hbefore)
  obtain ⟨rfl, rfl⟩ := Prod.mk.inj hpair
  obtain ⟨own, storage', u, rest, hown, hrest, rfl⟩ := Environment.lowerOnto_cons_ok.1 htail
  obtain ⟨code, hcode, rfl, rfl⟩ := Environment.lowerDecl_func_ok.1 hown
  obtain ⟨site, inner, hdefinition, hstorage, hstate, hframe, hbody, rfl⟩ :=
    FunctionSite.lowerFunction_ok.1 hcode
  obtain rfl : site = f.toFunctionSite := by
    cases site
    subst hdefinition hstorage hstate
    have hframe := Except.ok.inj (f.framed.symm.trans hframe)
    exact congrArg (FunctionSite.mk _ _ _) hframe.symm
  obtain ⟨rfl, rfl⟩ := result_ok.1 (f.lowered.symm.trans hbody)
  refine ⟨rest, storage, t, hrest, ?_⟩
  simp [Segments.append, lines]

theorem exists_of_mem_code (h : env.lower (.program node decls) = .ok program) {line : Line}
    (hline : line ∈ program.code) : ∃ f : CompiledFunction env decls, line ∈ f.lines := by
  obtain ⟨segments, storage, t, hlower, rfl⟩ := Environment.lower_ok.1 h
  -- the declarations are gone through from the left, with those behind taken as lowered
  suffices hrest : ∀ before rest : List Decl, decls = before ++ rest →
      ∀ (ahead : Segments) (storage : Storage) (s : LowerState) (segments : Segments)
        (storage' : Storage) (t : LowerState),
      env.lowerOnto Storage.empty before LowerState.initial = .ok (ahead, storage) s →
      env.lowerOnto storage rest s = .ok (segments, storage') t → line ∈ segments.code →
      ∃ f : CompiledFunction env decls, line ∈ f.lines from
    hrest [] decls rfl Segments.empty _ _ _ _ _ rfl hlower hline
  intro before rest
  induction rest generalizing before with
  | nil =>
    intro _ _ _ _ _ _ _ _ hrun hline
    obtain ⟨rfl, _, _⟩ := Environment.lowerOnto_nil_ok.1 hrun
    exact absurd hline List.not_mem_nil
  | cons decl rest ih =>
    intro hsplit ahead storage s _ storage' t hreached hrun hline
    obtain ⟨own, storage₁, u, segments, hown, hrest, rfl⟩ := Environment.lowerOnto_cons_ok.1 hrun
    rcases List.mem_append.1 hline with hline | hline
    · cases decl with
      | var decl | array decl =>
        obtain ⟨_, _, rfl⟩ := Environment.lowerDecl_var_ok.1 hown
        exact absurd hline List.not_mem_nil
      | func definition =>
        obtain ⟨code, hcode, rfl, _⟩ := Environment.lowerDecl_func_ok.1 hown
        obtain ⟨f, inner, rfl, rfl, rfl, hframe, hbody, rfl⟩ :=
          FunctionSite.lowerFunction_ok.1 hcode
        exact ⟨⟨f, before, rest, ahead, inner, u, hsplit, hreached, hframe, hbody⟩, hline⟩
    · have hnext : env.lowerOnto Storage.empty (before ++ [decl]) LowerState.initial =
          .ok (ahead.append (own.append Segments.empty), storage₁) u :=
        Environment.lowerOnto_append_ok.2 ⟨ahead, storage, s, _, hreached,
          Environment.lowerOnto_cons_ok.2 ⟨own, storage₁, u, Segments.empty, hown, rfl, rfl⟩, rfl⟩
      exact ih (before ++ [decl]) (by rw [hsplit, List.append_assoc]; rfl) _ _ _ _ _ _ hnext hrest
        hline

end CompiledFunction

end MipsCompiler
