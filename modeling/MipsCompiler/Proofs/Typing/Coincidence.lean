import MipsCompiler.Proofs.Moved
import MipsCompiler.Proofs.Typing.Check
import MipsCompiler.Proofs.Typing.Paths

set_option autoImplicit false

/-!
# What types depend on

The entries of a phrase depend on the symbols that it uses and on nothing else in the table. If the
positions are moved, so are the positions of the reports, and nothing changes besides.
-/

namespace MipsCompiler

/-- The second table has the same symbols at some indices, but for their positions. -/
def SymbolTable.Coincide (place : Position → Position) (symbols others : SymbolTable)
    (ids : List SymbolId) : Prop :=
  ∀ id ∈ ids, others.get id = (symbols.get id).move place

variable {place : Position → Position} {symbols others : SymbolTable}

namespace SymbolTable.Coincide

variable {ids more : List SymbolId} {id : SymbolId}

theorem append :
    Coincide place symbols others (ids ++ more) ↔
      Coincide place symbols others ids ∧ Coincide place symbols others more :=
  List.forall_mem_append

theorem cons :
    Coincide place symbols others (id :: ids) ↔
      others.get id = (symbols.get id).move place ∧ Coincide place symbols others ids :=
  List.forall_mem_cons

end SymbolTable.Coincide

open SymbolTable (Coincide)

theorem TypeEntry.computed_move (node : Node) (ty : Ty) (inputs : List Ty) :
    computed (node.move place) ty inputs = (computed node ty inputs).move place := by
  simp only [computed, move, Node.move, mk.injEq, true_and]
  cases ty with
  | error message =>
    simp only [reportAt]
    split <;> rfl
  | _ => rfl

theorem TypeEntry.silent_move (node : Node) (ty : Ty) :
    silent (node.move place) ty = (silent node ty).move place := rfl

theorem TypeEntry.declared_move (symbol : Symbol) (node : Node) (ty : Ty) :
    declared (symbol.move place) (node.move place) ty = (declared symbol node ty).move place := by
  change (if symbol.isError then _ else _) = TypeEntry.move place (if symbol.isError then _ else _)
  split
  · rfl
  · exact computed_move node ty []

/-! ## Expressions -/

theorem Phrase.tys_move (phrase : Phrase) (h : Coincide place symbols others phrase.mentions) :
    (phrase.move place).tys others = phrase.tys symbols := by
  induction phrase using Phrase.induct with
  | literal | nil => rfl
  | address node id =>
    have hid := h id List.mem_cons_self
    simp [Phrase.move, Expr.move, Phrase.tys, Expr.ty, hid, Symbol.move]
  | deref node operand ih | not node operand ih =>
    have hoperand := ih h
    simp_all [Phrase.move, Expr.move, Phrase.tys, Expr.ty]
  | index node left right ihleft ihright | binary node op left right ihleft ihright =>
    obtain ⟨hleft, hright⟩ := Coincide.append.1 h
    have hleft := ihleft hleft
    have hright := ihright hright
    simp_all [Phrase.move, Expr.move, Phrase.tys, Expr.ty]
  | call node callee args ih =>
    obtain ⟨hcallee, hargs⟩ := Coincide.cons.1 h
    have hargs := ih hargs
    simp_all [Phrase.move, Expr.move, Phrase.tys, Expr.ty, Symbol.move]
  | cons e es ih ihs =>
    obtain ⟨hfirst, hrest⟩ := Coincide.append.1 h
    have hfirst := ih hfirst
    have hrest := ihs hrest
    simp_all [Phrase.move, Expr.moveAll, Phrase.tys, Expr.tys]

theorem Expr.ty_move {e : Expr} (h : Coincide place symbols others e.mentions) :
    (e.move place).ty others = e.ty symbols :=
  List.singleton_inj.1 (Phrase.tys_move (.expr e) h)

theorem Expr.tys_move {es : List Expr} (h : Coincide place symbols others (Expr.mentionsAll es)) :
    Expr.tys others (Expr.moveAll place es) = Expr.tys symbols es :=
  Phrase.tys_move (.args es) h

theorem Expr.inputs_move {e : Expr} (h : Coincide place symbols others e.mentions) :
    (e.move place).inputs others = e.inputs symbols := by
  cases e with
  | literal | address => rfl
  | deref node operand | not node operand =>
    have hoperand : Coincide place symbols others operand.mentions := h
    simp only [Expr.move, Expr.inputs, Expr.ty_move hoperand]
  | index node left right | binary node op left right =>
    obtain ⟨hleft, hright⟩ := Coincide.append.1 h
    simp only [Expr.move, Expr.inputs, Expr.ty_move hleft, Expr.ty_move hright]
  | call node callee args =>
    obtain ⟨hcallee, hargs⟩ := Coincide.cons.1 h
    simp only [Expr.move, Expr.inputs, hcallee, Expr.tys_move hargs, Symbol.move]

theorem Expr.entry_move {e : Expr} (h : Coincide place symbols others e.mentions) :
    (e.move place).entry others = (e.entry symbols).move place := by
  have hcomputed : TypeEntry.computed (e.move place).node ((e.move place).ty others)
      ((e.move place).inputs others) =
        (TypeEntry.computed e.node (e.ty symbols) (e.inputs symbols)).move place := by
    rw [Expr.node_move, Expr.ty_move h, Expr.inputs_move h, TypeEntry.computed_move]
  cases e with
  | address node id => exact congrArg (TypeEntry.silent (node.move place)) (Expr.ty_move h)
  | _ => exact hcomputed

theorem Phrase.entries_move (phrase : Phrase) (h : Coincide place symbols others phrase.mentions) :
    (phrase.move place).entries others = (phrase.entries symbols).map (TypeEntry.move place) := by
  induction phrase using Phrase.induct with
  | literal node value => exact congrArg (fun x => [x]) (Expr.entry_move h)
  | address node id => exact congrArg (fun x => [x]) (Expr.entry_move h)
  | deref node operand ih | not node operand ih =>
    have hown := Expr.entry_move h
    have hoperand := ih h
    simp_all [Phrase.move, Expr.move, Phrase.entries, Expr.entries]
  | index node left right ihleft ihright | binary node op left right ihleft ihright =>
    have hown := Expr.entry_move h
    obtain ⟨hleft, hright⟩ := Coincide.append.1 h
    have hleft := ihleft hleft
    have hright := ihright hright
    simp_all [Phrase.move, Expr.move, Phrase.entries, Expr.entries]
  | call node callee args ih =>
    have hown := Expr.entry_move h
    have hargs := ih (Coincide.cons.1 h).2
    simp_all [Phrase.move, Expr.move, Phrase.entries, Expr.entries]
  | nil => rfl
  | cons e es ih ihs =>
    obtain ⟨hfirst, hrest⟩ := Coincide.append.1 h
    have hfirst := ih hfirst
    have hrest := ihs hrest
    simp_all [Phrase.move, Expr.moveAll, Phrase.entries, Expr.entriesAll]

theorem Expr.entries_move {e : Expr} (h : Coincide place symbols others e.mentions) :
    (e.move place).entries others = (e.entries symbols).map (TypeEntry.move place) :=
  Phrase.entries_move (.expr e) h

/-! ## Statements -/

theorem VarDecl.variableEntry_move {decl : VarDecl}
    (h : others.get decl.symbol = (symbols.get decl.symbol).move place) :
    (decl.move place).variableEntry others = (decl.variableEntry symbols).move place := by
  rw [variableEntry, VarDecl.move, h]
  exact TypeEntry.declared_move _ decl.node (symbols.get decl.symbol).variableTy

theorem StmtPhrase.entries_move (promise : Promise) (phrase : StmtPhrase)
    (h : Coincide place promise.symbols others phrase.mentions)
    (hlocals : Coincide place promise.symbols others phrase.locals) :
    (phrase.move place).entries { promise with symbols := others } =
      (phrase.entries promise).map (TypeEntry.move place) := by
  induction phrase using StmtPhrase.induct with
  | var decl =>
    exact congrArg (fun x => [x]) (VarDecl.variableEntry_move (hlocals _ List.mem_cons_self))
  | call node callee args => exact Phrase.entries_move (.expr (.call node callee args)) h
  | assign node target source =>
    obtain ⟨htarget, hsource⟩ := Coincide.append.1 h
    simp [StmtPhrase.move, Stmt.move, StmtPhrase.entries, Stmt.entries, Expr.entries_move htarget,
      Expr.entries_move hsource, Expr.ty_move htarget, Expr.ty_move hsource,
      TypeEntry.computed_move]
  | branch node condition thenBlock elseBlock ihthen ihelse =>
    obtain ⟨hfirst, helse⟩ := Coincide.append.1 h
    obtain ⟨hcondition, hthen⟩ := Coincide.append.1 hfirst
    rw [StmtPhrase.locals, Stmt.locals, List.map_append] at hlocals
    obtain ⟨hlthen, hlelse⟩ := Coincide.append.1 hlocals
    have hthen := ihthen hthen hlthen
    have helse := ihelse helse hlelse
    simp_all [StmtPhrase.move, Stmt.move, StmtPhrase.entries, Stmt.entries,
      Expr.entries_move hcondition, Expr.ty_move hcondition, TypeEntry.computed_move]
  | loop node condition body ih =>
    obtain ⟨hcondition, hbody⟩ := Coincide.append.1 h
    have hbody := ih hbody hlocals
    simp_all [StmtPhrase.move, Stmt.move, StmtPhrase.entries, Stmt.entries,
      Expr.entries_move hcondition, Expr.ty_move hcondition, TypeEntry.computed_move]
  | ret node value =>
    have hvalue : Coincide place promise.symbols others value.mentions := h
    simp [StmtPhrase.move, Stmt.move, StmtPhrase.entries, Stmt.entries, Expr.entries_move hvalue,
      Expr.ty_move hvalue, TypeEntry.computed_move, Promise.returnTy]
  | block node stmts ih =>
    have hstmts := ih h hlocals
    simp_all [StmtPhrase.move, Block.move, StmtPhrase.entries, Block.entries, TypeEntry.silent_move]
  | nil => rfl
  | cons s ss ih ihs =>
    obtain ⟨hfirst, hrest⟩ := Coincide.append.1 h
    rw [StmtPhrase.locals, Stmt.localsAll, List.map_append] at hlocals
    obtain ⟨hlfirst, hlrest⟩ := Coincide.append.1 hlocals
    have hfirst := ih hfirst hlfirst
    have hrest := ihs hrest hlrest
    simp_all [StmtPhrase.move, Stmt.moveAll, StmtPhrase.entries, Stmt.entriesAll]

theorem StmtPhrase.returns_move (phrase : StmtPhrase) :
    (phrase.move place).returns = phrase.returns := by
  induction phrase using StmtPhrase.induct with
  | var | call | assign | loop | ret | nil => rfl
  | branch node condition thenBlock elseBlock ihthen ihelse =>
    simp_all [StmtPhrase.move, Stmt.move, StmtPhrase.returns, Stmt.returns]
  | block node stmts ih => exact ih
  | cons s ss ih ihs =>
    simp_all [StmtPhrase.move, Stmt.moveAll, StmtPhrase.returns, Stmt.someReturns]

/-! ## Declarations -/

theorem VarDecl.arrayEntry_move {decl : VarDecl}
    (h : others.get decl.symbol = (symbols.get decl.symbol).move place) :
    (decl.move place).arrayEntry others = (decl.arrayEntry symbols).move place := by
  rw [arrayEntry, VarDecl.move, h]
  exact TypeEntry.declared_move _ decl.node (symbols.get decl.symbol).arrayTy

def Decl.uses : Decl → List SymbolId
  | .var decl => [decl.symbol]
  | .array decl => [decl.symbol]
  | .func definition =>
    definition.symbol :: (definition.params ++ definition.body.locals.map VarDecl.symbol ++
      definition.body.mentions)

theorem FuncDef.entries_move {definition : FuncDef} (entry : String)
    (h : Coincide place symbols others (Decl.func definition).uses) :
    (definition.move place).entries others entry =
      (definition.entries symbols entry).map (TypeEntry.move place) := by
  obtain ⟨hsymbol, hinside⟩ := Coincide.cons.1 h
  obtain ⟨hfront, hmentions⟩ := Coincide.append.1 hinside
  obtain ⟨_, hlocals⟩ := Coincide.append.1 hfront
  have hpromise : (definition.move place).promise others =
      { definition.promise symbols with symbols := others } := by
    rw [promise, FuncDef.move, hsymbol]
    rfl
  have hbody := StmtPhrase.entries_move (definition.promise symbols) (.block definition.body)
    hmentions hlocals
  have hreturns : (definition.body.move place).returns = definition.body.returns :=
    StmtPhrase.returns_move (.block definition.body)
  have hty : (definition.move place).ty others entry = definition.ty symbols entry := by
    rw [ty, FuncDef.move, hsymbol, hreturns]
    rfl
  have hown : TypeEntry.declared (others.get definition.symbol) (definition.node.move place)
      (definition.ty symbols entry) = (TypeEntry.declared (symbols.get definition.symbol)
        definition.node (definition.ty symbols entry)).move place := by
    rw [hsymbol, TypeEntry.declared_move]
  rw [entries, hpromise, hty, entries, List.map_append]
  exact congr (congrArg List.append hbody) (congrArg (fun x => [x]) hown)

theorem Decl.entries_move {decl : Decl} (entry : String)
    (h : Coincide place symbols others decl.uses) :
    (decl.move place).entries others entry =
      (decl.entries symbols entry).map (TypeEntry.move place) := by
  cases decl with
  | var decl =>
    exact congrArg (fun x => [x]) (VarDecl.variableEntry_move (h _ List.mem_cons_self))
  | array decl =>
    exact congrArg (fun x => [x]) (VarDecl.arrayEntry_move (h _ List.mem_cons_self))
  | func definition => exact FuncDef.entries_move entry h

theorem Decl.flatMap_entries_move {decls : List Decl} (entry : String)
    (h : ∀ decl ∈ decls, Coincide place symbols others decl.uses) :
    (decls.map (Decl.move place)).flatMap (Decl.entries others entry) =
      (decls.flatMap (Decl.entries symbols entry)).map (TypeEntry.move place) := by
  induction decls with
  | nil => rfl
  | cons decl decls ih =>
    obtain ⟨hdecl, hdecls⟩ := List.forall_mem_cons.1 h
    simp [Decl.entries_move entry hdecl, ih hdecls]

theorem TypeEntry.filterMap_report_move (entries : List TypeEntry) :
    (entries.map (TypeEntry.move place)).filterMap TypeEntry.report =
      (entries.filterMap TypeEntry.report).map (Diagnostic.move place) := by
  rw [List.filterMap_map, List.map_filterMap]
  rfl

/-- A check of a tree with its positions moved gives the same types, and the same reports with their
positions moved. -/
theorem check_move {node : Node} {decls : List Decl} (entry : String)
    (h : ∀ decl ∈ decls, Coincide place symbols others decl.uses) :
    (check others entry ((Tree.program node decls).move place)).types =
        (check symbols entry (.program node decls)).types ∧
      (check others entry ((Tree.program node decls).move place)).log =
        (check symbols entry (.program node decls)).log.map (Diagnostic.move place) := by
  have hentries : ((Tree.program node decls).move place).entries others entry =
      ((Tree.program node decls).entries symbols entry).map (TypeEntry.move place) := by
    rw [Tree.move, Tree.entries, Tree.entries, Decl.flatMap_entries_move entry h, List.map_append,
      List.map_singleton, TypeEntry.silent_move]
  rw [check, check, hentries]
  refine ⟨?_, TypeEntry.filterMap_report_move _⟩
  rw [List.map_map]
  rfl

end MipsCompiler
