import Mathlib.Data.List.Forall2
import MipsCompiler.Proofs.Parsing.Scoping
import MipsCompiler.Proofs.Postorder

set_option autoImplicit false

/-!
# What each node is typed from

Checking makes one entry for each node, in post-order. An entry is of one of four kinds: that of a
node without a type of its own, that of a name, that of the declaration of an error symbol, or one
whose type is computed from the inputs of the node. In the last case the first input that is an error
is the type, and a report is made where there is no such input.
-/

namespace MipsCompiler

/-- What the type of a node is computed from: the type of another node, or the declared type of a
symbol. -/
inductive Input where
  | operand (e : Expr)
  | symbol (id : SymbolId)

def Input.ty (symbols : SymbolTable) : Input → Ty
  | operand e => e.ty symbols
  | symbol id => (symbols.get id).ty

namespace Subtree

/-- The direct inputs of a node, in the order in which an error among them counts. -/
def inputs : Subtree → List Input
  | stmt (.call _ callee args) => .symbol callee :: args.map .operand
  | stmt (.assign _ target source) => [.operand target, .operand source]
  | stmt (.branch _ condition _ _) => [.operand condition]
  | stmt (.loop _ condition _) => [.operand condition]
  | stmt (.ret _ value) => [.operand value]
  | expr (.deref _ operand) => [.operand operand]
  | expr (.index _ base offset) => [.operand base, .operand offset]
  | expr (.binary _ _ left right) => [.operand left, .operand right]
  | expr (.not _ operand) => [.operand operand]
  | expr (.call _ callee args) => .symbol callee :: args.map .operand
  | _ => []

def symbol? : Subtree → Option SymbolId
  | decl d => some d.symbol
  | stmt (.var d) => some d.symbol
  | expr (.address _ symbol) => some symbol
  | _ => none

def isName : Subtree → Bool
  | expr (.address _ _) => true
  | _ => false

section

variable (symbols : SymbolTable) (entry : String) (promise : Promise)

/-- The entry of a node itself, in a function that makes the promise. -/
def ownEntry : Subtree → TypeEntry
  | tree (.program node _) => .silent node .void
  | tree (.error node message) => .computed node (.error message) []
  | decl (.var d) => d.variableEntry symbols
  | decl (.array d) => d.arrayEntry symbols
  | decl (.func definition) =>
    .declared (symbols.get definition.symbol) definition.node (definition.ty symbols entry)
  | block b => .silent b.node .void
  | stmt (.var d) => d.variableEntry symbols
  | stmt (.call node callee args) => Expr.entry symbols (.call node callee args)
  | stmt (.assign node target source) =>
    .computed node ((target.ty symbols).assign (source.ty symbols))
      [target.ty symbols, source.ty symbols]
  | stmt (.branch node condition _ _) =>
    .computed node (conditionTy .branch (condition.ty symbols)) [condition.ty symbols]
  | stmt (.loop node condition _) =>
    .computed node (conditionTy .loop (condition.ty symbols)) [condition.ty symbols]
  | stmt (.ret node value) =>
    .computed node (promise.returnTy (value.ty symbols)) [value.ty symbols]
  | expr e => e.entry symbols

def entries : Subtree → List TypeEntry
  | tree t => t.entries symbols entry
  | decl d => d.entries symbols entry
  | block b => b.entries promise
  | stmt s => s.entries promise
  | expr e => e.entries symbols

def promiseBelow : Subtree → Promise
  | decl (.func definition) => definition.promise symbols
  | _ => promise

end

section

variable {symbols : SymbolTable} {entry : String} {promise : Promise}

theorem entriesAll_args (es : List Expr) :
    Expr.entriesAll symbols es = (es.map expr).flatMap (entries symbols entry promise) := by
  induction es with
  | nil => rfl
  | cons e es ih =>
    rw [Expr.entriesAll, ih]
    rfl

theorem entriesAll_stmts (ss : List Stmt) :
    Stmt.entriesAll promise ss = (ss.map stmt).flatMap (entries symbols entry promise) := by
  induction ss with
  | nil => rfl
  | cons s ss ih =>
    rw [Stmt.entriesAll, ih]
    rfl

theorem entries_eq (hpromise : promise.symbols = symbols) (part : Subtree) :
    part.entries symbols entry promise =
      part.children.flatMap (entries symbols entry (part.promiseBelow symbols promise)) ++
        [part.ownEntry symbols entry promise] := by
  subst hpromise
  cases part with
  | tree t =>
    cases t with
    | error => rfl
    | program node decls =>
      rw [children, List.flatMap_map]
      rfl
  | decl d =>
    cases d with
    | var | array => rfl
    | func definition =>
      simp [entries, Decl.entries, FuncDef.entries, children, promiseBelow, ownEntry]
  | block b =>
    cases b with
    | mk node stmts => exact congrArg (· ++ [_]) (entriesAll_stmts stmts)
  | stmt s =>
    cases s with
    | call node callee args => exact congrArg (· ++ [_]) (entriesAll_args args)
    | _ => simp [entries, Stmt.entries, children, promiseBelow, ownEntry]
  | expr e =>
    cases e with
    | call node callee args => exact congrArg (· ++ [_]) (entriesAll_args args)
    | _ => simp [entries, Expr.entries, children, promiseBelow, ownEntry]

/-- Checking visits the nodes in post-order. -/
theorem forall₂_entries (hpromise : promise.symbols = symbols) (part : Subtree) :
    List.Forall₂ (fun node x => ∃ promise : Promise, promise.symbols = symbols ∧
      x = node.ownEntry symbols entry promise) part.postorder
      (part.entries symbols entry promise) := by
  induction part using induct generalizing promise with
  | step part ih =>
    have hbelow : (part.promiseBelow symbols promise).symbols = symbols := by
      unfold promiseBelow
      split
      · rfl
      · exact hpromise
    rw [postorder_eq, entries_eq hpromise]
    refine List.rel_append ?_ (.cons ⟨promise, hpromise, rfl⟩ .nil)
    have hsame : List.Forall₂ (fun child other => child = other ∧ child ∈ part.children)
        part.children part.children :=
      List.forall₂_same.2 fun child hchild => ⟨rfl, hchild⟩
    refine List.rel_flatMap hsame ?_
    rintro child _ ⟨rfl, hchild⟩
    exact ih child hchild hbelow

end

theorem ownEntry_id (symbols : SymbolTable) (entry : String) (promise : Promise) (part : Subtree) :
    (part.ownEntry symbols entry promise).id = part.id := by
  cases part with
  | tree t => cases t <;> rfl
  | decl d => cases d <;> exact TypeEntry.declared_id _ _ _
  | block b => rfl
  | stmt s =>
    cases s with
    | var d => exact TypeEntry.declared_id _ _ _
    | _ => rfl
  | expr e => exact e.entry_id symbols

end Subtree

namespace TypeEntry

theorem silent_report {node : Node} {ty : Ty} {d : Diagnostic} :
    ¬ (silent node ty).report = some d := by
  intro h
  cases h

theorem declared_ty {symbol : Symbol} {node : Node} {ty : Ty} :
    (declared symbol node ty).ty = ty := by
  unfold declared
  split <;> rfl

theorem computed_report {node : Node} {ty : Ty} {inputs : List Ty} {d : Diagnostic} :
    (computed node ty inputs).report = some d ↔
      ∃ message, ty = .error message ∧ Ty.firstError inputs = none ∧
        d = .mistyped node.pos message := by
  have hnone : Ty.firstError inputs = none ↔ inputs.any Ty.isError = false := by
    simp [Ty.firstError]
  cases ty with
  | error message =>
    cases hany : inputs.any Ty.isError with
    | true => simp [computed, reportAt, hnone, hany]
    | false => simp [computed, reportAt, hnone, hany, eq_comm]
  | _ => simp [computed, reportAt]

end TypeEntry

/-- The four kinds of entries. -/
inductive Subtree.Settled (symbols : SymbolTable) (part : Subtree) : TypeEntry → Prop
  | void : Settled symbols part (.silent part.node .void)
  | name {id : SymbolId} :
      part.isName → part.symbol? = some id →
      Settled symbols part (.silent part.node (symbols.get id).ty.place)
  | refused {id : SymbolId} :
      part.symbol? = some id → (symbols.get id).isError →
      Settled symbols part (.silent part.node (symbols.get id).ty)
  | computed {ty : Ty} :
      part.isName = false → (∀ id ∈ part.symbol?, (symbols.get id).isError = false) →
      (∀ t, Ty.firstError (part.inputs.map (Input.ty symbols)) = some t → ty = t) →
      Settled symbols part (.computed part.node ty (part.inputs.map (Input.ty symbols)))

theorem Ty.eq_of_firstError_one {f : Ty → Ty} (hf : ∀ message, f (.error message) = .error message)
    {operand t : Ty} (h : firstError [operand] = some t) : f operand = t := by
  cases operand with
  | error message => exact (hf message).trans (Option.some.inj h)
  | _ => cases h

theorem Symbol.variableTy_refused {symbol : Symbol} (h : symbol.isError) :
    symbol.variableTy = symbol.ty := by
  simp [variableTy, h]

theorem Symbol.arrayTy_refused {symbol : Symbol} (h : symbol.isError) :
    symbol.arrayTy = symbol.ty := by
  simp [arrayTy, h]

theorem FuncDef.ty_of_error {symbols : SymbolTable} {entry : String} {definition : FuncDef}
    (h : (symbols.get definition.symbol).ty.isError) :
    definition.ty symbols entry = (symbols.get definition.symbol).ty := by
  cases hty : (symbols.get definition.symbol).ty with
  | error message => simp [FuncDef.ty, Symbol.signatureTy, hty, Ty.isError]
  | _ => simp [hty, Ty.isError] at h

theorem Promise.returnTy_error (promise : Promise) (message : String) :
    promise.returnTy (.error message) = .error message := by
  unfold returnTy
  split
  · exact if_pos rfl
  · rfl

theorem Expr.tys_eq {symbols : SymbolTable} (es : List Expr) :
    Expr.tys symbols es = (es.map Input.operand).map (Input.ty symbols) := by
  induction es with
  | nil => rfl
  | cons e es ih => exact congrArg (e.ty symbols :: ·) ih

theorem Expr.inputs_eq {symbols : SymbolTable} (e : Expr) :
    e.inputs symbols = (Subtree.expr e).inputs.map (Input.ty symbols) := by
  cases e with
  | call node callee args => exact congrArg ((symbols.get callee).ty :: ·) (Expr.tys_eq args)
  | _ => rfl

theorem Expr.ty_of_firstError {symbols : SymbolTable} {t : Ty} (e : Expr)
    (h : Ty.firstError (e.inputs symbols) = some t) : e.ty symbols = t := by
  cases e with
  | literal | address => cases h
  | deref | not => exact Ty.eq_of_firstError_one (fun _ => rfl) h
  | index | binary | call => exact congrArg (Option.getD · _) h

namespace Subtree

variable {symbols : SymbolTable} {entry : String} {promise : Promise} {part : Subtree}

theorem Settled.of_declared {id : SymbolId} {ty : Ty} (hname : part.isName = false)
    (hsymbol : part.symbol? = some id) (hinputs : part.inputs = [])
    (hty : (symbols.get id).isError → ty = (symbols.get id).ty) :
    part.Settled symbols (.declared (symbols.get id) part.node ty) := by
  unfold TypeEntry.declared
  split
  · next herror =>
    rw [hty herror]
    exact .refused hsymbol herror
  · next herror =>
    have hcomputed : part.Settled symbols
        (.computed part.node ty (part.inputs.map (Input.ty symbols))) := by
      refine .computed hname ?_ ?_
      · intro other hother
        cases hsymbol.symm.trans hother
        simpa using herror
      · rw [hinputs]
        exact fun t h => absurd h (by simp [Ty.firstError])
    rw [hinputs] at hcomputed
    exact hcomputed

/-- A computed type, where the node has neither a symbol of its own nor is it a name. -/
theorem Settled.of_inputs {ty : Ty} (hname : part.isName = false) (hsymbol : part.symbol? = none)
    (hty : ∀ t, Ty.firstError (part.inputs.map (Input.ty symbols)) = some t → ty = t) :
    part.Settled symbols (.computed part.node ty (part.inputs.map (Input.ty symbols))) :=
  .computed hname (fun _ h => by rw [hsymbol] at h; cases h) hty

theorem Settled.of_call {node : Node} {callee : SymbolId} {args : List Expr}
    (hname : part.isName = false) (hsymbol : part.symbol? = none) (hnode : part.node = node)
    (hinputs : part.inputs = .symbol callee :: args.map .operand) :
    part.Settled symbols (Expr.entry symbols (.call node callee args)) := by
  have htys : part.inputs.map (Input.ty symbols) = (Expr.call node callee args).inputs symbols := by
    rw [hinputs, (Expr.call node callee args).inputs_eq]
    rfl
  have hcomputed : part.Settled symbols (.computed part.node
      ((Expr.call node callee args).ty symbols) (part.inputs.map (Input.ty symbols))) :=
    .of_inputs hname hsymbol fun t h => Expr.ty_of_firstError _ (htys ▸ h)
  rw [htys, hnode] at hcomputed
  exact hcomputed

theorem expr_settled (e : Expr) : (expr e).Settled symbols (e.entry symbols) := by
  cases e with
  | address node id => exact .name rfl rfl
  | call node callee args => exact .of_call rfl rfl rfl rfl
  | _ => exact .of_inputs rfl rfl fun t h => Expr.ty_of_firstError _ h

theorem ownEntry_settled
    (hrefused : ∀ id ∈ part.symbol?, (symbols.get id).isError → (symbols.get id).ty.isError) :
    part.Settled symbols (part.ownEntry symbols entry promise) := by
  cases part with
  | tree t =>
    cases t with
    | program => exact .void
    | error =>
      refine .of_inputs rfl rfl fun t h => ?_
      cases h
  | decl d =>
    cases d with
    | var d => exact .of_declared rfl rfl rfl Symbol.variableTy_refused
    | array d => exact .of_declared rfl rfl rfl Symbol.arrayTy_refused
    | func definition =>
      refine .of_declared rfl rfl rfl fun herror => ?_
      exact FuncDef.ty_of_error (hrefused definition.symbol rfl herror)
  | block b => exact .void
  | stmt s =>
    cases s with
    | var d => exact .of_declared rfl rfl rfl Symbol.variableTy_refused
    | call node callee args => exact .of_call rfl rfl rfl rfl
    | assign node target source => exact .of_inputs rfl rfl fun t h => congrArg (Option.getD · _) h
    | branch | loop =>
      exact .of_inputs rfl rfl fun t h => Ty.eq_of_firstError_one (fun _ => rfl) h
    | ret node value =>
      exact .of_inputs rfl rfl fun t h => Ty.eq_of_firstError_one promise.returnTy_error h
  | expr e => exact expr_settled e

end Subtree

theorem Symbol.isError_variableTy {symbol : Symbol} (h : symbol.isError = false)
    (hty : symbol.ty.isError) : symbol.variableTy.isError := by
  have hscalar : symbol.ty.isScalar = false := by
    cases hsymbol : symbol.ty with
    | error => rfl
    | _ => rw [hsymbol] at hty; cases hty
  simp [variableTy, h, hscalar, TypeFault.ty, Ty.isError]

theorem parameterFault_isSome {params : List Ty} (name : String) (slot : Nat)
    (h : ∃ t ∈ params, t.isError) : (parameterFault name slot params).isSome := by
  induction params generalizing slot with
  | nil =>
    obtain ⟨t, hmem, _⟩ := h
    cases hmem
  | cons first params ih =>
    obtain ⟨t, hmem, ht⟩ := h
    cases first with
    | void | error => rfl
    | _ =>
      rcases List.mem_cons.1 hmem with rfl | hmem
      · cases ht
      · exact ih (slot + 1) ⟨t, hmem, ht⟩

theorem signatureFault_isSome {entry name : String} {params : List Ty} {result : Ty}
    (h : ∃ t ∈ params, t.isError) : (signatureFault entry name params result).isSome := by
  unfold signatureFault
  split
  · cases params with
    | nil =>
      obtain ⟨t, hmem, _⟩ := h
      cases hmem
    | cons => rfl
  · cases hfault : parameterFault name 0 params with
    | some => rfl
    | none =>
      have hsome := parameterFault_isSome name 0 h
      rw [hfault] at hsome
      cases hsome

theorem FuncDef.isError_ty {symbols : SymbolTable} {entry : String} {definition : FuncDef}
    {params : List Ty} {result : Ty}
    (hty : (symbols.get definition.symbol).ty = .func params result) (h : ∃ t ∈ params, t.isError) :
    (definition.ty symbols entry).isError := by
  have hsome : (signatureFault entry (symbols.get definition.symbol).name params result).isSome :=
    signatureFault_isSome h
  obtain ⟨fault, hfault⟩ := Option.isSome_iff_exists.1 hsome
  have hsignature : (symbols.get definition.symbol).signatureTy entry = fault.ty := by
    simp only [Symbol.signatureTy, hty, hfault]
  simp [FuncDef.ty, hsignature, TypeFault.ty, Ty.isError]

end MipsCompiler
