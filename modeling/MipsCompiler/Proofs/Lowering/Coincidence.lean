import MipsCompiler.Lowering.Program
import MipsCompiler.Proofs.Typing.Coincidence

set_option autoImplicit false

/-!
# What lowering depends on

The code of a phrase depends on the symbols that it uses and on the types of the expressions in it.
Positions appear in faults only, so if they are moved a fault is moved with them, and code stays as it
is.
-/

namespace MipsCompiler

open SymbolTable (Coincide)

namespace Lower

variable {α β : Type} (place : Position → Position)

/-- Lowers in the same way, and moves the fault if there is one. -/
def moved (m : Lower α) : Lower α :=
  EStateM.adaptExcept (Fault.move place) m

@[simp] theorem moved_pure (a : α) : moved place (pure a) = pure a := rfl

@[simp] theorem moved_bind (m : Lower α) (f : α → Lower β) :
    moved place (m >>= f) = moved place m >>= fun a => moved place (f a) := by
  funext s
  change EStateM.adaptExcept _ (EStateM.bind m f) s = EStateM.bind (EStateM.adaptExcept _ m) _ s
  simp only [EStateM.bind, EStateM.adaptExcept]
  cases m s <;> rfl

@[simp] theorem moved_map (f : α → β) (m : Lower α) :
    moved place (f <$> m) = f <$> moved place m := by
  rw [← bind_pure_comp, ← bind_pure_comp, moved_bind]
  rfl

@[simp] theorem moved_get : moved place get = get := rfl

@[simp] theorem moved_set (s : LowerState) : moved place (set s) = set s := rfl

@[simp] theorem moved_refuse (refusal : Refusal) :
    moved place (refuse refusal : Lower α) = refuse (refusal.move place) := rfl

theorem moved_ofExcept (result : Except Refusal α) :
    moved place (ofExcept result) = ofExcept (result.mapError (Refusal.move place)) := by
  cases result <;> rfl

@[simp] theorem moved_perform (op : StackOp) : moved place (perform op) = perform op := by
  simp only [perform, moved_bind, moved_get]
  congr 1
  funext s
  cases op.depthAfter s.depth <;> rfl

@[simp] theorem moved_performIf (condition : Bool) (op : StackOp) :
    moved place (performIf condition op) = performIf condition op := by
  cases condition
  · rfl
  · exact moved_perform place op

@[simp] theorem moved_requestLabel (name : String) :
    moved place (requestLabel name) = requestLabel name := rfl

theorem moved_balanced (pos : Position) (lower : Lower Code) :
    moved place (balanced pos lower) = balanced (place pos) (moved place lower) := by
  simp only [balanced, moved_bind, moved_get]
  congr 1
  funext before
  congr 1
  funext code
  congr 1
  funext after
  split <;> rfl

end Lower

variable {place : Position → Position}

/-- The second table gives the same types to some expressions. -/
def TypeTable.Coincide (types others : TypeTable) (exprs : List Expr) : Prop :=
  ∀ e ∈ exprs, others.get? e.node.id = types.get? e.node.id

theorem sizeAt_move (pos : Position) (ty : Ty) :
    sizeAt (place pos) ty = (sizeAt pos ty).mapError (Refusal.move place) := by
  unfold sizeAt
  cases ty.size? <;> rfl

theorem Environment.typeOf_move {env others : Environment} {node : Node}
    (h : others.types.get? node.id = env.types.get? node.id) :
    others.typeOf (node.move place) = Lower.moved place (env.typeOf node) := by
  simp only [typeOf, Node.move, h]
  cases env.types.get? node.id <;> rfl

theorem Literal.moved_lower (value : Literal) : Lower.moved place value.lower = value.lower := by
  cases value <;> simp [lower]

namespace Body

theorem moved_combineWords (op : WordOp) :
    Lower.moved place (combineWords op) = combineWords op := by
  simp [combineWords]

theorem moved_combineSingles (op : SingleOp) :
    Lower.moved place (combineSingles op) = combineSingles op := by
  simp [combineSingles]

theorem moved_compareSingles (body : Body) (comparison : Comparison) :
    Lower.moved place (body.compareSingles comparison) = body.compareSingles comparison := by
  simp [compareSingles, requestLabel]

theorem moved_select (size : Nat) : Lower.moved place (select size) = select size := by
  simp [select]

theorem moved_invert : Lower.moved place invert = invert := by
  simp [invert]

theorem moved_store (ty : Ty) : Lower.moved place (store ty) = store ty := by
  unfold store
  split <;> simp

theorem moved_skipTo (label : String) : Lower.moved place (skipTo label) = skipTo label := by
  simp [skipTo]

theorem moved_leave (body : Body) (ty : Ty) :
    Lower.moved place (body.leave ty) = body.leave ty := by
  unfold leave
  split <;> simp

theorem moved_jumpTo (body : Body) (callee : SymbolId) (words : Nat) :
    Lower.moved place (body.jumpTo callee words) = body.jumpTo callee words := by
  simp [jumpTo]

theorem moved_combine (body : Body) (pos : Position) (op : BinaryOp) (operand : Ty) :
    Lower.moved place (body.combine pos op operand) = body.combine (place pos) op operand := by
  unfold combine
  split
  · cases op <;> simp [moved_combineSingles, moved_compareSingles, Refusal.move]
  · exact moved_combineWords op.wordOp

theorem moved_load (pos : Position) (ty : Ty) :
    Lower.moved place (load pos ty) = load (place pos) ty := by
  simp only [load, Lower.moved_bind, Lower.moved_perform]
  cases ty <;> simp [Refusal.move]

theorem moved_elementSize (pos : Position) (ty : Ty) :
    Lower.moved place (elementSize pos ty) = elementSize (place pos) ty := by
  unfold elementSize
  cases ty with
  | address element => exact (Lower.moved_ofExcept place _).trans (by rw [← sizeAt_move])
  | _ => rfl

theorem pushAddress_move {body : Body} {others : Environment} {id : SymbolId}
    (h : others.symbols.get id = (body.env.symbols.get id).move place) (pos : Position) :
    { body with env := others }.pushAddress (place pos) id =
      Lower.moved place (body.pushAddress pos id) := by
  simp only [pushAddress, h]
  cases body.storage.addressInstr? .t0 id with
  | none => rfl
  | some load => simp

theorem jumpTo_move {body : Body} {others : Environment} {callee : SymbolId}
    (h : others.symbols.get callee = (body.env.symbols.get callee).move place)
    (hentry : others.entry = body.env.entry) (words : Nat) :
    { body with env := others }.jumpTo callee words =
      Lower.moved place (body.jumpTo callee words) := by
  rw [moved_jumpTo]
  simp only [jumpTo, h, hentry]
  rfl

end Body

/-! ## Expressions -/

def Phrase.LowersAlike (place : Position → Position) (body : Body) (others : Environment) :
    Phrase → Prop
  | .expr e => (e.move place).lower { body with env := others } = Lower.moved place (e.lower body)
  | .args es =>
    Expr.lowerAll { body with env := others } (Expr.moveAll place es) =
      Lower.moved place (Expr.lowerAll body es)

def StmtPhrase.lower (body : Body) : StmtPhrase → Lower Code
  | .stmt s => s.lower body
  | .stmts ss => Stmt.lowerAll body ss
  | .block b => b.lower body

def StmtPhrase.declared : StmtPhrase → List VarDecl
  | .stmt s => s.locals
  | .stmts ss => Stmt.localsAll ss
  | .block b => b.locals

section

variable {body : Body} {others : Environment} (hentry : others.entry = body.env.entry)

include hentry

theorem Phrase.lower_move (phrase : Phrase)
    (h : Coincide place body.env.symbols others.symbols phrase.mentions)
    (htypes : body.env.types.Coincide others.types phrase.subexprs) :
    phrase.LowersAlike place body others := by
  induction phrase using Phrase.induct with
  | literal node value => exact (Literal.moved_lower value).symm
  | address node id => exact Body.pushAddress_move (h id List.mem_cons_self) node.pos
  | deref node operand ih =>
    obtain ⟨htype, hinside⟩ := List.forall_mem_cons.1 htypes
    have htype : others.typeOf (node.move place) = Lower.moved place (body.env.typeOf node) :=
      Environment.typeOf_move htype
    have hoperand := ih h hinside
    simp_all [LowersAlike, Expr.move, Expr.lower, Body.moved_load]
  | index node base offset ihbase ihoffset =>
    obtain ⟨htype, hinside⟩ := List.forall_mem_cons.1 htypes
    have htype : others.typeOf (node.move place) = Lower.moved place (body.env.typeOf node) :=
      Environment.typeOf_move htype
    obtain ⟨hbase, hoffset⟩ := Coincide.append.1 h
    obtain ⟨htbase, htoffset⟩ := List.forall_mem_append.1 hinside
    have hbase := ihbase hbase htbase
    have hoffset := ihoffset hoffset htoffset
    simp_all [LowersAlike, Expr.move, Expr.lower, Body.moved_elementSize, Body.moved_select]
  | binary node op left right ihleft ihright =>
    obtain ⟨hleft, hright⟩ := Coincide.append.1 h
    obtain ⟨htleft, htright⟩ := List.forall_mem_append.1 (List.forall_mem_cons.1 htypes).2
    have htype : others.typeOf (left.node.move place) =
        Lower.moved place (body.env.typeOf left.node) :=
      Environment.typeOf_move (htleft left left.self_mem_subexprs)
    have hleft := ihleft hleft htleft
    have hright := ihright hright htright
    simp_all [LowersAlike, Expr.move, Expr.lower, Expr.node_move, Body.moved_combine]
    rfl
  | not node operand ih =>
    have hoperand := ih h (List.forall_mem_cons.1 htypes).2
    simp_all [LowersAlike, Expr.move, Expr.lower, Body.moved_invert]
  | call node callee args ih =>
    obtain ⟨hcallee, hargs⟩ := Coincide.cons.1 h
    have hargs := ih hargs (List.forall_mem_cons.1 htypes).2
    simp_all [LowersAlike, Expr.move, Expr.lower, Body.jumpTo_move hcallee hentry]
  | nil => rfl
  | cons e es ih ihs =>
    obtain ⟨hfirst, hrest⟩ := Coincide.append.1 h
    obtain ⟨htfirst, htrest⟩ := List.forall_mem_append.1 htypes
    have htype : others.typeOf (e.node.move place) = Lower.moved place (body.env.typeOf e.node) :=
      Environment.typeOf_move (htfirst e e.self_mem_subexprs)
    have hfirst := ih hfirst htfirst
    have hrest := ihs hrest htrest
    simp_all [LowersAlike, Expr.moveAll, Expr.lowerAll, Expr.node_move, Lower.moved_ofExcept,
      sizeAt_move]

theorem Expr.lower_move {e : Expr}
    (h : Coincide place body.env.symbols others.symbols e.mentions)
    (htypes : body.env.types.Coincide others.types e.subexprs) :
    (e.move place).lower { body with env := others } = Lower.moved place (e.lower body) :=
  Phrase.lower_move hentry (.expr e) h htypes

/-! ## Statements -/

theorem Body.callAsStatement_move {callee : SymbolId} {args : List Expr}
    (h : Coincide place body.env.symbols others.symbols (callee :: Expr.mentionsAll args))
    (htypes : body.env.types.Coincide others.types (Expr.subexprsAll args)) :
    { body with env := others }.callAsStatement callee (Expr.moveAll place args) =
      Lower.moved place (body.callAsStatement callee args) := by
  obtain ⟨hcallee, hmentions⟩ := Coincide.cons.1 h
  have hargs : Expr.lowerAll { body with env := others } (Expr.moveAll place args) =
      Lower.moved place (Expr.lowerAll body args) :=
    Phrase.lower_move hentry (.args args) hmentions htypes
  simp [callAsStatement, hargs, Body.jumpTo_move hcallee hentry, hcallee]

theorem StmtPhrase.lower_move (phrase : StmtPhrase)
    (h : Coincide place body.env.symbols others.symbols phrase.mentions)
    (htypes : body.env.types.Coincide others.types phrase.exprs) :
    (phrase.move place).lower { body with env := others } =
      Lower.moved place (phrase.lower body) := by
  induction phrase using StmtPhrase.induct with
  | var decl => exact (Lower.moved_balanced place decl.node.pos (pure [])).symm
  | call node callee args =>
    have hcall := Body.callAsStatement_move hentry h (List.forall_mem_cons.1 htypes).2
    simp [StmtPhrase.move, Stmt.move, StmtPhrase.lower, Stmt.lower, hcall, Lower.moved_balanced]
  | assign node target source =>
    obtain ⟨htarget, hsource⟩ := Coincide.append.1 h
    obtain ⟨httarget, htsource⟩ := List.forall_mem_append.1 htypes
    have htype : others.typeOf (source.node.move place) =
        Lower.moved place (body.env.typeOf source.node) :=
      Environment.typeOf_move (htsource source source.self_mem_subexprs)
    simp [StmtPhrase.move, Stmt.move, StmtPhrase.lower, Stmt.lower, Lower.moved_balanced,
      Expr.lower_move hentry htarget httarget, Expr.lower_move hentry hsource htsource,
      Expr.node_move, htype, Body.moved_store]
  | branch node condition thenBlock elseBlock ihthen ihelse =>
    obtain ⟨hfirst, helse⟩ := Coincide.append.1 h
    obtain ⟨hcondition, hthen⟩ := Coincide.append.1 hfirst
    obtain ⟨htfirst, htelse⟩ := List.forall_mem_append.1 htypes
    obtain ⟨htcondition, htthen⟩ := List.forall_mem_append.1 htfirst
    have hcondition := Expr.lower_move hentry hcondition htcondition
    have hthen := ihthen hthen htthen
    have helse := ihelse helse htelse
    simp_all [StmtPhrase.move, Stmt.move, StmtPhrase.lower, Stmt.lower, Lower.moved_balanced,
      Body.requestLabel, Body.moved_skipTo]
  | loop node condition inner ih =>
    obtain ⟨hcondition, hinner⟩ := Coincide.append.1 h
    obtain ⟨htcondition, htinner⟩ := List.forall_mem_append.1 htypes
    have hcondition := Expr.lower_move hentry hcondition htcondition
    have hinner := ih hinner htinner
    simp_all [StmtPhrase.move, Stmt.move, StmtPhrase.lower, Stmt.lower, Lower.moved_balanced,
      Body.requestLabel, Body.moved_skipTo]
  | ret node value =>
    have htype : others.typeOf (value.node.move place) =
        Lower.moved place (body.env.typeOf value.node) :=
      Environment.typeOf_move (htypes value value.self_mem_subexprs)
    simp [StmtPhrase.move, Stmt.move, StmtPhrase.lower, Stmt.lower, Lower.moved_balanced,
      Expr.lower_move hentry h htypes, Expr.node_move, htype, Body.moved_leave]
    rfl
  | block node stmts ih => exact ih h htypes
  | nil => rfl
  | cons s ss ih ihs =>
    obtain ⟨hfirst, hrest⟩ := Coincide.append.1 h
    obtain ⟨htfirst, htrest⟩ := List.forall_mem_append.1 htypes
    have hfirst := ih hfirst htfirst
    have hrest := ihs hrest htrest
    simp_all [StmtPhrase.move, Stmt.moveAll, StmtPhrase.lower, Stmt.lowerAll]

end

/-! ## Declarations -/

section

variable {symbols others : SymbolTable}

theorem StmtPhrase.declared_move (phrase : StmtPhrase) :
    (phrase.move place).declared = phrase.declared.map (VarDecl.move place) := by
  induction phrase using StmtPhrase.induct with
  | var | call | assign | ret | nil => rfl
  | branch node condition thenBlock elseBlock ihthen ihelse =>
    simp_all [StmtPhrase.move, Stmt.move, StmtPhrase.declared, Stmt.locals]
  | loop node condition body ih => exact ih
  | block node stmts ih => exact ih
  | cons s ss ih ihs =>
    simp_all [StmtPhrase.move, Stmt.moveAll, StmtPhrase.declared, Stmt.localsAll]

theorem mapError_bind {ε ε' α β : Type} (g : ε → ε') (m : Except ε α) (f : α → Except ε β) :
    (m >>= f).mapError g = m.mapError g >>= fun a => (f a).mapError g := by
  cases m <;> rfl

theorem mapError_error {ε ε' α : Type} (g : ε → ε') (e : ε) :
    (Except.error e : Except ε α).mapError g = .error (g e) := rfl

theorem StackFrame.parameterSlots_move (pos : Position) (offset : Nat) {params : List SymbolId}
    (h : Coincide place symbols others params) :
    parameterSlots others (place pos) offset params =
      (parameterSlots symbols pos offset params).mapError (Refusal.move place) := by
  induction params generalizing offset with
  | nil => rfl
  | cons param params ih =>
    obtain ⟨hparam, hparams⟩ := Coincide.cons.1 h
    simp only [parameterSlots, mapError_bind, hparam, Symbol.move_ty, sizeAt_move, ih _ hparams]
    rfl

theorem StackFrame.localSlots_move (size : Nat) {decls : List VarDecl}
    (h : Coincide place symbols others (decls.map VarDecl.symbol)) :
    localSlots others size (decls.map (VarDecl.move place)) =
      (localSlots symbols size decls).mapError (Refusal.move place) := by
  induction decls generalizing size with
  | nil => rfl
  | cons decl decls ih =>
    obtain ⟨hdecl, hdecls⟩ := Coincide.cons.1 h
    simp only [List.map_cons, localSlots, mapError_bind, VarDecl.move_symbol, VarDecl.move_node,
      Node.move_pos, hdecl, Symbol.move_ty, sizeAt_move, ih _ hdecls]
    rfl

theorem StackFrame.ofFunction_move {definition : FuncDef}
    (h : Coincide place symbols others (Decl.func definition).uses) :
    ofFunction others (definition.move place) =
      (ofFunction symbols definition).mapError (Refusal.move place) := by
  obtain ⟨hfront, _⟩ := Coincide.append.1 (Coincide.cons.1 h).2
  obtain ⟨hparams, hlocals⟩ := Coincide.append.1 hfront
  have hreverse : Coincide place symbols others definition.params.reverse :=
    fun id hid => hparams id (List.mem_reverse.1 hid)
  have hdeclared : (definition.body.move place).locals =
      definition.body.locals.map (VarDecl.move place) :=
    StmtPhrase.declared_move (.block definition.body)
  simp only [ofFunction, mapError_bind, FuncDef.move, Node.move_pos,
    parameterSlots_move _ _ hreverse, hdeclared, localSlots_move _ hlocals]
  rfl

theorem Storage.reserve_move (storage : Storage) (labels : LabelSupply) {decl : VarDecl}
    (h : others.get decl.symbol = (symbols.get decl.symbol).move place) :
    storage.reserve others labels (decl.move place) =
      (storage.reserve symbols labels decl).mapError (Refusal.move place) := by
  simp only [reserve, mapError_bind, VarDecl.move_symbol, VarDecl.move_node, Node.move_pos, h,
    Symbol.move_ty, sizeAt_move]
  rfl

end

def Decl.exprs : Decl → List Expr
  | .var _ => []
  | .array _ => []
  | .func definition => definition.body.exprs

namespace Environment

variable {env others : Environment}

theorem reserveGlobal_move (storage : Storage) {decl : VarDecl}
    (h : others.symbols.get decl.symbol = (env.symbols.get decl.symbol).move place) :
    others.reserveGlobal storage (decl.move place) =
      Lower.moved place (env.reserveGlobal storage decl) := by
  simp [reserveGlobal, Storage.reserve_move storage _ h, Lower.moved_ofExcept]

variable (hentry : others.entry = env.entry)

include hentry

theorem lowerFunction_move (storage : Storage) {definition : FuncDef}
    (h : Coincide place env.symbols others.symbols (Decl.func definition).uses)
    (htypes : env.types.Coincide others.types definition.body.exprs) :
    others.lowerFunction storage (definition.move place) =
      Lower.moved place (env.lowerFunction storage definition) := by
  obtain ⟨hsymbol, hinside⟩ := Coincide.cons.1 h
  have hmentions := (Coincide.append.1 hinside).2
  have hbody (frame : StackFrame) (name finish : String) :
      (definition.body.move place).lower ⟨others, storage.enter frame, name, finish⟩ =
        Lower.moved place (definition.body.lower ⟨env, storage.enter frame, name, finish⟩) := by
    let inner : Body := ⟨env, storage.enter frame, name, finish⟩
    have hsame : others.entry = inner.env.entry := hentry
    exact StmtPhrase.lower_move hsame (.block definition.body) hmentions htypes
  simp [lowerFunction, ending, Symbol.codeLabel, hsymbol, hentry, StackFrame.ofFunction_move h,
    hbody, Lower.moved_ofExcept]

theorem lowerDecl_move (storage : Storage) {decl : Decl}
    (h : Coincide place env.symbols others.symbols decl.uses)
    (htypes : env.types.Coincide others.types decl.exprs) :
    others.lowerDecl storage (decl.move place) = Lower.moved place (env.lowerDecl storage decl) := by
  cases decl with
  | var decl | array decl =>
    simp [Decl.move, lowerDecl, reserveGlobal_move storage (h _ List.mem_cons_self)]
  | func definition => simp [Decl.move, lowerDecl, lowerFunction_move hentry storage h htypes]

theorem lowerDecls_move (storage : Storage) {decls : List Decl}
    (h : ∀ decl ∈ decls, Coincide place env.symbols others.symbols decl.uses)
    (htypes : ∀ decl ∈ decls, env.types.Coincide others.types decl.exprs) :
    others.lowerDecls storage (decls.map (Decl.move place)) =
      Lower.moved place (env.lowerDecls storage decls) := by
  induction decls generalizing storage with
  | nil => rfl
  | cons decl decls ih =>
    obtain ⟨hfirst, hrest⟩ := List.forall_mem_cons.1 h
    obtain ⟨htfirst, htrest⟩ := List.forall_mem_cons.1 htypes
    simp [lowerDecls, lowerDecl_move hentry storage hfirst htfirst, ih _ hrest htrest]

/-- A tree with its positions moved is lowered to the same program, or refused with a fault whose
position is moved. -/
theorem lower_move {node : Node} {decls : List Decl}
    (h : ∀ decl ∈ decls, Coincide place env.symbols others.symbols decl.uses)
    (htypes : ∀ decl ∈ decls, env.types.Coincide others.types decl.exprs) :
    others.lower ((Tree.program node decls).move place) =
      (env.lower (.program node decls)).mapError (Fault.move place) := by
  simp only [Tree.move, lower, lowerDecls_move hentry Storage.empty h htypes]
  simp only [EStateM.run, Lower.moved, EStateM.adaptExcept]
  cases env.lowerDecls Storage.empty decls LowerState.initial <;> rfl

end Environment

end MipsCompiler
