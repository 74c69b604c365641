import MipsCompiler.Proofs.Parsing.Scoping
import MipsCompiler.Proofs.Typing.Judgement
import MipsCompiler.Typing.Program

set_option autoImplicit false

/-!
# Checked programs

A program in which all names are resolved and nothing is reported is well typed: each statement uses
its expressions as the rules of `WellTyped` allow, and each declaration has a type that can be
declared. `check_typed` says so of a list of declarations.
-/

namespace MipsCompiler

def Silent (entries : List TypeEntry) : Prop :=
  ∀ x ∈ entries, x.report = none

namespace Silent

variable {entries others : List TypeEntry}

theorem append : Silent (entries ++ others) ↔ Silent entries ∧ Silent others :=
  List.forall_mem_append

theorem one {x : TypeEntry} : Silent [x] ↔ x.report = none :=
  List.forall_mem_singleton

theorem of_filterMap (h : entries.filterMap TypeEntry.report = []) : Silent entries :=
  List.filterMap_eq_nil_iff.1 h

end Silent

theorem TypeEntry.isError_of_computed {node : Node} {ty : Ty} {inputs : List Ty}
    (h : (TypeEntry.computed node ty inputs).report = none)
    (hinputs : ∀ t ∈ inputs, t.isError = false) : ty.isError = false := by
  cases ty with
  | error message =>
    have hnone : inputs.any Ty.isError = false := by
      simpa using hinputs
    simp [computed, reportAt, hnone] at h
  | _ => rfl

theorem TypeEntry.isError_of_declared {symbol : Symbol} {node : Node} {ty : Ty}
    (h : (TypeEntry.declared symbol node ty).report = none) (hsymbol : symbol.isError = false) :
    ty.isError = false := by
  rw [declared, hsymbol] at h
  exact isError_of_computed h fun _ h => absurd h List.not_mem_nil

namespace Phrase

def entries (symbols : SymbolTable) : Phrase → List TypeEntry
  | .expr e => e.entries symbols
  | .args es => Expr.entriesAll symbols es

def tys (symbols : SymbolTable) : Phrase → List Ty
  | .expr e => [e.ty symbols]
  | .args es => Expr.tys symbols es

/-- Where nothing is reported and no name is broken, no type is an error. -/
theorem isError_of_silent {symbols : SymbolTable} (phrase : Phrase)
    (hmentions : ∀ id ∈ phrase.mentions, (symbols.get id).ty.isError = false)
    (hsilent : Silent (phrase.entries symbols)) : ∀ t ∈ phrase.tys symbols, t.isError = false := by
  induction phrase using Phrase.induct with
  | literal node value =>
    cases value <;> simp [tys, Expr.ty, Literal.ty, Ty.isError]
  | address node id =>
    have hid := hmentions id List.mem_cons_self
    refine List.forall_mem_singleton.2 ?_
    rw [Expr.ty]
    cases hty : (symbols.get id).ty with
    | error => rw [hty] at hid; cases hid
    | _ => rfl
  | deref node operand ih =>
    obtain ⟨hoperand, hown⟩ := Silent.append.1 hsilent
    exact List.forall_mem_singleton.2
      (TypeEntry.isError_of_computed (Silent.one.1 hown) (ih hmentions hoperand))
  | index node base offset ihbase ihoffset =>
    obtain ⟨hparts, hown⟩ := Silent.append.1 hsilent
    obtain ⟨hbase, hoffset⟩ := Silent.append.1 hparts
    obtain ⟨hmbase, hmoffset⟩ := List.forall_mem_append.1 hmentions
    have hinputs := List.forall_mem_append.2 ⟨ihbase hmbase hbase, ihoffset hmoffset hoffset⟩
    exact List.forall_mem_singleton.2 (TypeEntry.isError_of_computed (Silent.one.1 hown) hinputs)
  | binary node op left right ihleft ihright =>
    obtain ⟨hparts, hown⟩ := Silent.append.1 hsilent
    obtain ⟨hleft, hright⟩ := Silent.append.1 hparts
    obtain ⟨hmleft, hmright⟩ := List.forall_mem_append.1 hmentions
    have hinputs := List.forall_mem_append.2 ⟨ihleft hmleft hleft, ihright hmright hright⟩
    exact List.forall_mem_singleton.2 (TypeEntry.isError_of_computed (Silent.one.1 hown) hinputs)
  | not node operand ih =>
    obtain ⟨hoperand, hown⟩ := Silent.append.1 hsilent
    exact List.forall_mem_singleton.2
      (TypeEntry.isError_of_computed (Silent.one.1 hown) (ih hmentions hoperand))
  | call node callee args ih =>
    obtain ⟨hargs, hown⟩ := Silent.append.1 hsilent
    obtain ⟨hcallee, hmargs⟩ := List.forall_mem_cons.1 hmentions
    refine List.forall_mem_singleton.2 (TypeEntry.isError_of_computed (Silent.one.1 hown) ?_)
    exact List.forall_mem_cons.2 ⟨hcallee, ih hmargs hargs⟩
  | nil => exact fun _ h => absurd h List.not_mem_nil
  | cons e es ih ihs =>
    obtain ⟨hfirst, hrest⟩ := Silent.append.1 hsilent
    obtain ⟨hmfirst, hmrest⟩ := List.forall_mem_append.1 hmentions
    exact List.forall_mem_append.2 ⟨ih hmfirst hfirst, ihs hmrest hrest⟩

end Phrase

/-- The rules for the statements of a function that returns `result`. -/
inductive StmtTyped (symbols : SymbolTable) (reach : List SymbolId) (result : Ty) :
    StmtPhrase → Prop
  | var {decl : VarDecl} :
      (symbols.get decl.symbol).ty.isScalar →
      StmtTyped symbols reach result (.stmt (.var decl))
  | call {node : Node} {callee : SymbolId} {args : List Expr} {ty : Ty} :
      WellTyped symbols reach (.value (.call node callee args) ty) →
      StmtTyped symbols reach result (.stmt (.call node callee args))
  | assign {node : Node} {target source : Expr} {ty : Ty} :
      WellTyped symbols reach (.place target ty) → WellTyped symbols reach (.value source ty) →
      ty.isScalar → StmtTyped symbols reach result (.stmt (.assign node target source))
  | branch {node : Node} {condition : Expr} {thenBlock elseBlock : Block} :
      WellTyped symbols reach (.value condition .bool) →
      StmtTyped symbols reach result (.block thenBlock) →
      StmtTyped symbols reach result (.block elseBlock) →
      StmtTyped symbols reach result (.stmt (.branch node condition thenBlock elseBlock))
  | loop {node : Node} {condition : Expr} {body : Block} :
      WellTyped symbols reach (.value condition .bool) →
      StmtTyped symbols reach result (.block body) →
      StmtTyped symbols reach result (.stmt (.loop node condition body))
  | ret {node : Node} {value : Expr} :
      WellTyped symbols reach (.value value result) →
      StmtTyped symbols reach result (.stmt (.ret node value))
  | block {node : Node} {stmts : List Stmt} :
      StmtTyped symbols reach result (.stmts stmts) →
      StmtTyped symbols reach result (.block (.mk node stmts))
  | nil : StmtTyped symbols reach result (.stmts [])
  | cons {s : Stmt} {ss : List Stmt} :
      StmtTyped symbols reach result (.stmt s) → StmtTyped symbols reach result (.stmts ss) →
      StmtTyped symbols reach result (.stmts (s :: ss))

namespace StmtTyped

variable {symbols : SymbolTable} {reach : List SymbolId} {result : Ty} {phrase : StmtPhrase}

theorem calls (h : StmtTyped symbols reach result phrase) {node : Node} {callee : SymbolId}
    {args : List Expr} (hcall : .call node callee args ∈ phrase.exprs) :
    ∃ ty, WellTyped symbols reach (.value (.call node callee args) ty) := by
  induction h with
  | var | nil => exact absurd hcall List.not_mem_nil
  | call h => exact h.calls hcall
  | assign htarget hsource _ => exact (List.mem_append.1 hcall).elim htarget.calls hsource.calls
  | branch hcondition _ _ ihthen ihelse =>
    rcases List.mem_append.1 hcall with hcall | hcall
    · exact (List.mem_append.1 hcall).elim hcondition.calls ihthen
    · exact ihelse hcall
  | loop hcondition _ ih => exact (List.mem_append.1 hcall).elim hcondition.calls ih
  | ret hvalue => exact hvalue.calls hcall
  | block _ ih => exact ih hcall
  | cons _ _ ih ihs => exact (List.mem_append.1 hcall).elim ih ihs

theorem returns_typed (h : StmtTyped symbols reach result phrase) {node : Node} {value : Expr}
    (hret : .ret node value ∈ phrase.substmts) : WellTyped symbols reach (.value value result) := by
  induction h with
  | var | call | assign => nomatch List.mem_singleton.1 hret
  | branch _ _ _ ihthen ihelse =>
    rcases List.mem_cons.1 hret with heq | hret
    · nomatch heq
    · exact (List.mem_append.1 hret).elim ihthen ihelse
  | loop _ _ ih =>
    rcases List.mem_cons.1 hret with heq | hret
    · nomatch heq
    · exact ih hret
  | ret hvalue =>
    cases List.mem_singleton.1 hret
    exact hvalue
  | block _ ih => exact ih hret
  | nil => exact absurd hret List.not_mem_nil
  | cons _ _ ih ihs => exact (List.mem_append.1 hret).elim ih ihs

end StmtTyped

def StmtPhrase.entries (promise : Promise) : StmtPhrase → List TypeEntry
  | .stmt s => s.entries promise
  | .stmts ss => Stmt.entriesAll promise ss
  | .block b => b.entries promise

section

variable {symbols : SymbolTable} {reach : List SymbolId} {name : String} {result : Ty}

theorem Expr.isError_of_silent (hreach : ∀ id ∈ reach, (symbols.get id).ty.isDeclarable) {e : Expr}
    (hmentions : ∀ id ∈ e.mentions, id ∈ reach) (hsilent : Silent (e.entries symbols)) :
    (e.ty symbols).isError = false := by
  refine Phrase.isError_of_silent (.expr e) ?_ hsilent _ List.mem_cons_self
  intro id hid
  exact Ty.isError_of_isDeclarable (hreach id (hmentions id hid))

theorem eq_bool_of_conditionTy {construct : Construct} {ty : Ty}
    (h : (conditionTy construct ty).isError = false) : ty = .bool := by
  cases ty with
  | bool => rfl
  | _ => nomatch h

theorem Expr.condition_typed (hreach : ∀ id ∈ reach, (symbols.get id).ty.isDeclarable) {e : Expr}
    {node : Node} {construct : Construct} (hshape : e.isValue)
    (hmentions : ∀ id ∈ e.mentions, id ∈ reach) (hsilent : Silent (e.entries symbols))
    (hown : (TypeEntry.computed node (conditionTy construct (e.ty symbols))
      [e.ty symbols]).report = none) :
    WellTyped symbols reach (.value e .bool) := by
  have herror := Expr.isError_of_silent hreach hmentions hsilent
  have hbool := eq_bool_of_conditionTy
    (TypeEntry.isError_of_computed hown (List.forall_mem_singleton.2 herror))
  exact Expr.value_typed hreach hshape hmentions hbool rfl

theorem Symbol.isScalar_of_variableTy {symbol : Symbol} (hsymbol : symbol.isError = false)
    (h : symbol.variableTy.isError = false) : symbol.ty.isScalar := by
  unfold variableTy at h
  split at h
  · next hscalar => simpa [hsymbol] using hscalar
  · nomatch h

theorem VarDecl.isScalar_of_silent {decl : VarDecl}
    (hsymbol : (symbols.get decl.symbol).isError = false)
    (h : (decl.variableEntry symbols).report = none) : (symbols.get decl.symbol).ty.isScalar :=
  Symbol.isScalar_of_variableTy hsymbol (TypeEntry.isError_of_declared h hsymbol)

theorem Expr.call_typed (hreach : ∀ id ∈ reach, (symbols.get id).ty.isDeclarable) {node : Node}
    {callee : SymbolId} {args : List Expr} (hshape : Expr.areValues args)
    (hmentions : ∀ id ∈ (Expr.call node callee args).mentions, id ∈ reach)
    (hsilent : Silent ((Expr.call node callee args).entries symbols)) :
    WellTyped symbols reach (.value (.call node callee args)
      ((Expr.call node callee args).ty symbols)) := by
  have hcallee := Ty.call_eq rfl (Expr.isError_of_silent hreach hmentions hsilent)
  have hdeclarable := hreach callee (hmentions callee List.mem_cons_self)
  rw [hcallee] at hdeclarable
  exact Expr.value_typed hreach hshape hmentions rfl (Bool.and_eq_true_iff.1 hdeclarable).2

theorem eq_of_returnTy {value : Ty}
    (h : (Promise.returnTy ⟨symbols, name, some result⟩ value).isError = false)
    (hvalue : value.isError = false) : value = result := by
  simp only [Promise.returnTy, hvalue, Bool.false_or, decide_eq_true_eq] at h
  split at h
  · next heq => exact heq.symm
  · nomatch h

theorem StmtPhrase.typed (hreach : ∀ id ∈ reach, (symbols.get id).ty.isDeclarable)
    (hresult : result.isResult) (phrase : StmtPhrase) (hformed : phrase.isFormed)
    (hmentions : ∀ id ∈ phrase.mentions, id ∈ reach)
    (hlocals : ∀ id ∈ phrase.locals, (symbols.get id).isError = false)
    (hsilent : Silent (phrase.entries ⟨symbols, name, some result⟩)) :
    StmtTyped symbols reach result phrase := by
  induction phrase using StmtPhrase.induct with
  | var decl =>
    exact .var (VarDecl.isScalar_of_silent (hlocals _ List.mem_cons_self) (Silent.one.1 hsilent))
  | call node callee args => exact .call (Expr.call_typed hreach hformed hmentions hsilent)
  | assign node target source =>
    obtain ⟨hparts, hown⟩ := Silent.append.1 hsilent
    obtain ⟨hstarget, hssource⟩ := Silent.append.1 hparts
    obtain ⟨htarget, hsource⟩ := Bool.and_eq_true_iff.1 hformed
    obtain ⟨hmtarget, hmsource⟩ := List.forall_mem_append.1 hmentions
    have hinputs : ∀ t ∈ [target.ty symbols, source.ty symbols], t.isError = false := by
      simp [Expr.isError_of_silent hreach hmtarget hstarget,
        Expr.isError_of_silent hreach hmsource hssource]
    have hassign := TypeEntry.isError_of_computed (Silent.one.1 hown) hinputs
    obtain ⟨hplace, hscalar⟩ := Ty.store?_eq (Ty.assign_eq rfl hassign)
    have hvalue := Expr.value_typed hreach hsource hmsource rfl (Ty.isResult_of_isScalar hscalar)
    rcases Expr.place_typed hreach htarget hmtarget hplace with hplace | ⟨params, ty, hfunc⟩
    · exact .assign hplace hvalue hscalar
    · rw [hfunc] at hscalar
      nomatch hscalar
  | branch node condition thenBlock elseBlock ihthen ihelse =>
    obtain ⟨hparts, hown⟩ := Silent.append.1 hsilent
    obtain ⟨hparts, hselse⟩ := Silent.append.1 hparts
    obtain ⟨hscondition, hsthen⟩ := Silent.append.1 hparts
    obtain ⟨hparts, helse⟩ := Bool.and_eq_true_iff.1 hformed
    obtain ⟨hcondition, hthen⟩ := Bool.and_eq_true_iff.1 hparts
    obtain ⟨hparts, hmelse⟩ := List.forall_mem_append.1 hmentions
    obtain ⟨hmcondition, hmthen⟩ := List.forall_mem_append.1 hparts
    rw [StmtPhrase.locals, Stmt.locals, List.map_append] at hlocals
    obtain ⟨hlthen, hlelse⟩ := List.forall_mem_append.1 hlocals
    exact .branch
      (Expr.condition_typed hreach hcondition hmcondition hscondition (Silent.one.1 hown))
      (ihthen hthen hmthen hlthen hsthen) (ihelse helse hmelse hlelse hselse)
  | loop node condition body ih =>
    obtain ⟨hparts, hown⟩ := Silent.append.1 hsilent
    obtain ⟨hscondition, hsbody⟩ := Silent.append.1 hparts
    obtain ⟨hcondition, hbody⟩ := Bool.and_eq_true_iff.1 hformed
    obtain ⟨hmcondition, hmbody⟩ := List.forall_mem_append.1 hmentions
    exact .loop
      (Expr.condition_typed hreach hcondition hmcondition hscondition (Silent.one.1 hown))
      (ih hbody hmbody hlocals hsbody)
  | ret node value =>
    obtain ⟨hsvalue, hown⟩ := Silent.append.1 hsilent
    have herror := Expr.isError_of_silent hreach hmentions hsvalue
    have hreturn := TypeEntry.isError_of_computed (Silent.one.1 hown)
      (List.forall_mem_singleton.2 herror)
    exact .ret (Expr.value_typed hreach hformed hmentions (eq_of_returnTy hreturn herror) hresult)
  | block node stmts ih =>
    exact .block (ih hformed hmentions hlocals (Silent.append.1 hsilent).1)
  | nil => exact .nil
  | cons s ss ih ihs =>
    obtain ⟨hsfirst, hsrest⟩ := Silent.append.1 hsilent
    obtain ⟨hfirst, hrest⟩ := Bool.and_eq_true_iff.1 hformed
    obtain ⟨hmfirst, hmrest⟩ := List.forall_mem_append.1 hmentions
    rw [StmtPhrase.locals, Stmt.localsAll, List.map_append] at hlocals
    obtain ⟨hlfirst, hlrest⟩ := List.forall_mem_append.1 hlocals
    exact .cons (ih hfirst hmfirst hlfirst hsfirst) (ihs hrest hmrest hlrest hsrest)

theorem StmtPhrase.locals_scalar (phrase : StmtPhrase)
    (hlocals : ∀ id ∈ phrase.locals, (symbols.get id).isError = false)
    (hsilent : Silent (phrase.entries ⟨symbols, name, some result⟩)) :
    ∀ id ∈ phrase.locals, (symbols.get id).ty.isScalar := by
  induction phrase using StmtPhrase.induct with
  | var decl =>
    exact List.forall_mem_singleton.2
      (VarDecl.isScalar_of_silent (hlocals _ List.mem_cons_self) (Silent.one.1 hsilent))
  | call | assign | ret | nil => exact fun _ h => absurd h List.not_mem_nil
  | branch node condition thenBlock elseBlock ihthen ihelse =>
    obtain ⟨hparts, _⟩ := Silent.append.1 hsilent
    obtain ⟨hparts, hselse⟩ := Silent.append.1 hparts
    obtain ⟨_, hsthen⟩ := Silent.append.1 hparts
    rw [StmtPhrase.locals, Stmt.locals, List.map_append] at hlocals ⊢
    obtain ⟨hlthen, hlelse⟩ := List.forall_mem_append.1 hlocals
    exact List.forall_mem_append.2 ⟨ihthen hlthen hsthen, ihelse hlelse hselse⟩
  | loop node condition body ih =>
    obtain ⟨hparts, _⟩ := Silent.append.1 hsilent
    exact ih hlocals (Silent.append.1 hparts).2
  | block node stmts ih => exact ih hlocals (Silent.append.1 hsilent).1
  | cons s ss ih ihs =>
    obtain ⟨hsfirst, hsrest⟩ := Silent.append.1 hsilent
    rw [StmtPhrase.locals, Stmt.localsAll, List.map_append] at hlocals ⊢
    obtain ⟨hlfirst, hlrest⟩ := List.forall_mem_append.1 hlocals
    exact List.forall_mem_append.2 ⟨ih hlfirst hsfirst, ihs hlrest hsrest⟩

end

def FuncDef.reach (definition : FuncDef) (outside : List SymbolId) : List SymbolId :=
  definition.params ++ (definition.body.locals.map VarDecl.symbol ++ outside)

/-- A function that returns `result`. -/
structure FuncDef.Typed (symbols : SymbolTable) (entry : String) (outside : List SymbolId)
    (definition : FuncDef) (result : Ty) : Prop where
  signature : (symbols.get definition.symbol).ty =
    .func (definition.params.map fun id => (symbols.get id).ty) result
  isResult : result.isResult
  returns : result.isVoid = false → definition.body.returns
  entry : (symbols.get definition.symbol).name = entry → definition.params = [] ∧ result = .void
  params : ∀ id ∈ definition.params, (symbols.get id).ty.isScalar
  locals : ∀ id ∈ definition.body.locals.map VarDecl.symbol, (symbols.get id).ty.isScalar
  body : StmtTyped symbols (definition.reach outside) result (.block definition.body)

/-- The rules for declarations in order, each in reach of itself and of the later ones. -/
inductive Typed (symbols : SymbolTable) (entry : String) : List SymbolId → List Decl → Prop
  | nil {reach : List SymbolId} : Typed symbols entry reach []
  | var {reach : List SymbolId} {decl : VarDecl} {decls : List Decl} :
      (symbols.get decl.symbol).ty.isScalar →
      Typed symbols entry (decl.symbol :: reach) decls →
      Typed symbols entry reach (.var decl :: decls)
  | array {reach : List SymbolId} {decl : VarDecl} {decls : List Decl} :
      (symbols.get decl.symbol).ty.size?.isSome →
      Typed symbols entry (decl.symbol :: reach) decls →
      Typed symbols entry reach (.array decl :: decls)
  | func {reach : List SymbolId} {definition : FuncDef} {decls : List Decl} {result : Ty} :
      definition.Typed symbols entry (definition.symbol :: reach) result →
      Typed symbols entry (definition.symbol :: reach) decls →
      Typed symbols entry reach (.func definition :: decls)

section

variable {symbols : SymbolTable} {entry : String} {reach : List SymbolId}

theorem Ty.isResult_of_ofName {name : String} (h : (ofName name).isError = false) :
    (ofName name).isResult := by
  unfold ofName at h ⊢
  split
  · rfl
  split
  · rfl
  split
  · rfl
  split
  · rfl
  · next hint hfloat hbool hvoid =>
    simp only [hint, hfloat, hbool, hvoid, if_false] at h
    nomatch h

theorem parameterFault_eq_none {name : String} {slot : Nat} {params : List Ty}
    (h : parameterFault name slot params = none) :
    ∀ t ∈ params, t.isVoid = false ∧ t.isError = false := by
  induction params generalizing slot with
  | nil => exact fun _ h => absurd h List.not_mem_nil
  | cons t params ih =>
    cases t with
    | void | error => nomatch h
    | _ => exact List.forall_mem_cons.2 ⟨⟨rfl, rfl⟩, ih h⟩

theorem signatureFault_eq_none {name : String} {params : List Ty} {result : Ty}
    (h : signatureFault entry name params result = none) :
    (name = entry → params = [] ∧ result = .void) ∧
      (∀ t ∈ params, t.isVoid = false ∧ t.isError = false) ∧ result.isError = false := by
  unfold signatureFault at h
  split at h
  · split at h
    · next hmain =>
      obtain ⟨hparams, hresult⟩ := Bool.and_eq_true_iff.1 hmain
      obtain rfl := List.isEmpty_iff.1 hparams
      cases result with
      | void => exact ⟨fun _ => ⟨rfl, rfl⟩, fun _ h => absurd h List.not_mem_nil, rfl⟩
      | _ => nomatch hresult
    · nomatch h
  · next hname =>
    cases hparams : parameterFault name 0 params with
    | some fault => rw [hparams] at h; nomatch h
    | none =>
      rw [hparams] at h
      cases hresult : result.isError with
      | true => rw [hresult] at h; nomatch h
      | false => exact ⟨fun h => absurd h hname, parameterFault_eq_none hparams, rfl⟩

theorem Symbol.signatureFault_of_signatureTy {symbol : Symbol} {params : List Ty} {result : Ty}
    (hty : symbol.ty = .func params result) (h : (symbol.signatureTy entry).isError = false) :
    signatureFault entry symbol.name params result = none := by
  cases hfault : signatureFault entry symbol.name params result with
  | none => rfl
  | some fault =>
    simp only [signatureTy, hty, hfault] at h
    nomatch h

theorem FuncDef.signature_of_ty {definition : FuncDef}
    (h : (definition.ty symbols entry).isError = false) :
    ((symbols.get definition.symbol).signatureTy entry).isError = false ∧
      ((symbols.get definition.symbol).owesValue → definition.body.returns) := by
  simp only [FuncDef.ty] at h
  split at h
  · nomatch h
  · next hreturns =>
    refine ⟨h, ?_⟩
    intro howes
    simpa [h, howes] using hreturns

theorem FuncDef.Scoped.signature_typed {definition : FuncDef} {result : String}
    (h : definition.Scoped symbols reach)
    (hty : (symbols.get definition.symbol).ty =
      .func (definition.params.map fun id => (symbols.get id).ty) (Ty.ofName result))
    (hsilent : (definition.ty symbols entry).isError = false) :
    (Ty.ofName result).isResult ∧ ((Ty.ofName result).isVoid = false → definition.body.returns) ∧
      ((symbols.get definition.symbol).name = entry →
        definition.params = [] ∧ Ty.ofName result = .void) ∧
      ∀ id ∈ definition.params, (symbols.get id).ty.isScalar := by
  obtain ⟨hsignature, hreturns⟩ := FuncDef.signature_of_ty hsilent
  obtain ⟨hentry, hparams, hresult⟩ := signatureFault_eq_none
    (Symbol.signatureFault_of_signatureTy hty hsignature)
  refine ⟨Ty.isResult_of_ofName hresult, ?_, ?_, ?_⟩
  · intro hvoid
    apply hreturns
    rw [Symbol.owesValue, Symbol.promisedResult, hty]
    simp [hresult, hvoid]
  · intro hname
    exact ⟨List.map_eq_nil_iff.1 (hentry hname).1, (hentry hname).2⟩
  · intro id hid
    obtain ⟨_, name, hname⟩ := h.params id hid
    obtain ⟨hvoid, herror⟩ := hparams _ (List.mem_map_of_mem hid)
    rw [hname] at hvoid herror ⊢
    exact Ty.isScalar_of_isResult (Ty.isResult_of_ofName herror) hvoid

theorem Symbol.isError_of_kind {symbol : Symbol} {kind : SymbolKind} (h : symbol.kind = kind)
    (hkind : ∀ message, kind ≠ .error message) : symbol.isError = false := by
  unfold isError
  rw [h]
  cases kind with
  | error message => exact absurd rfl (hkind message)
  | _ => rfl

theorem Ty.isDeclarable_of_isScalar {t : Ty} (h : t.isScalar) : t.isDeclarable := by
  cases t with
  | int | float | bool => rfl
  | _ => nomatch h

theorem Ty.isDeclarable_of_size? {t : Ty} (h : t.size?.isSome) : t.isDeclarable := by
  cases t with
  | func => nomatch h
  | _ => exact h

theorem FuncDef.Typed.isDeclarable {definition : FuncDef} {result : Ty}
    (h : definition.Typed symbols entry reach result) :
    (symbols.get definition.symbol).ty.isDeclarable := by
  rw [h.signature]
  refine Bool.and_eq_true_iff.2 ⟨List.all_eq_true.2 ?_, h.isResult⟩
  intro t ht
  obtain ⟨id, hid, rfl⟩ := List.mem_map.1 ht
  exact h.params id hid

theorem FuncDef.Scoped.typed {definition : FuncDef}
    (h : definition.Scoped symbols (definition.symbol :: reach))
    (hreach : ∀ id ∈ reach, (symbols.get id).ty.isDeclarable)
    (hsilent : Silent (definition.entries symbols entry)) :
    ∃ result, definition.Typed symbols entry (definition.symbol :: reach) result := by
  obtain ⟨hbody, hown⟩ := Silent.append.1 hsilent
  obtain ⟨result, hty⟩ := h.signature
  have hsymbol := Symbol.isError_of_kind h.kind (fun _ h => nomatch h)
  obtain ⟨hresult, hreturns, hentry, hparams⟩ := h.signature_typed hty
    (TypeEntry.isError_of_declared (Silent.one.1 hown) hsymbol)
  have hpromise : definition.promise symbols =
      ⟨symbols, (symbols.get definition.symbol).name, some (Ty.ofName result)⟩ := by
    simp [FuncDef.promise, Symbol.promisedResult, hty, Ty.isError_of_isResult hresult]
  rw [hpromise] at hbody
  have hkinds : ∀ id ∈ definition.body.locals.map VarDecl.symbol,
      (symbols.get id).isError = false :=
    fun id hid => Symbol.isError_of_kind (h.locals id hid) (fun _ h => nomatch h)
  have hlocals := StmtPhrase.locals_scalar (.block definition.body) hkinds hbody
  have hself : (symbols.get definition.symbol).ty.isDeclarable := by
    rw [hty]
    refine Bool.and_eq_true_iff.2 ⟨List.all_eq_true.2 ?_, hresult⟩
    exact List.forall_mem_map.2 hparams
  have hinside : ∀ id ∈ definition.reach (definition.symbol :: reach),
      (symbols.get id).ty.isDeclarable := by
    simp only [FuncDef.reach, List.forall_mem_append, List.forall_mem_cons]
    exact ⟨fun id hid => Ty.isDeclarable_of_isScalar (hparams id hid),
      fun id hid => Ty.isDeclarable_of_isScalar (hlocals id hid), hself, hreach⟩
  refine ⟨Ty.ofName result, hty, hresult, hreturns, hentry, hparams, hlocals, ?_⟩
  refine StmtPhrase.typed hinside hresult (.block definition.body) h.formed ?_ hkinds hbody
  intro id hid
  simpa [FuncDef.reach] using h.mentions id hid

theorem Symbol.size?_of_arrayTy {symbol : Symbol} (hsymbol : symbol.isError = false)
    (h : symbol.arrayTy.isError = false) : symbol.ty.size?.isSome := by
  simp only [arrayTy, hsymbol, Bool.false_eq_true, if_false] at h
  split at h
  · nomatch h
  split at h
  · nomatch h
  · next hsize => simpa [Option.isSome_iff_ne_none] using hsize

/-- Declarations whose names are resolved and of which nothing is reported. -/
theorem Scoped.typed {isName : String → Prop} {decls : List Decl}
    (h : Scoped symbols isName reach decls)
    (hreach : ∀ id ∈ reach, (symbols.get id).ty.isDeclarable)
    (hsilent : Silent (decls.flatMap (Decl.entries symbols entry))) :
    Typed symbols entry reach decls := by
  induction h with
  | nil => exact .nil
  | @cons reach decl decls _ _ hdecl _ ih =>
    rw [List.flatMap_cons] at hsilent
    obtain ⟨hown, hrest⟩ := Silent.append.1 hsilent
    cases decl with
    | var decl =>
      have hsymbol := Symbol.isError_of_kind hdecl (fun _ h => nomatch h)
      have hscalar := VarDecl.isScalar_of_silent hsymbol (Silent.one.1 hown)
      have hdeclarable := Ty.isDeclarable_of_isScalar hscalar
      exact .var hscalar (ih (List.forall_mem_cons.2 ⟨hdeclarable, hreach⟩) hrest)
    | array decl =>
      have hsymbol := Symbol.isError_of_kind hdecl (fun _ h => nomatch h)
      have hsize := Symbol.size?_of_arrayTy hsymbol
        (TypeEntry.isError_of_declared (Silent.one.1 hown) hsymbol)
      have hdeclarable := Ty.isDeclarable_of_size? hsize
      exact .array hsize (ih (List.forall_mem_cons.2 ⟨hdeclarable, hreach⟩) hrest)
    | func definition =>
      obtain ⟨result, htyped⟩ := FuncDef.Scoped.typed hdecl hreach hown
      exact .func htyped (ih (List.forall_mem_cons.2 ⟨htyped.isDeclarable, hreach⟩) hrest)

end

end MipsCompiler
