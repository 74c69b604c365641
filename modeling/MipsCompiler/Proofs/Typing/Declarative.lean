import MipsCompiler.Proofs.Accepted
import MipsCompiler.Proofs.Typing.NodeOrder
import MipsCompiler.Proofs.Typing.Paths

set_option autoImplicit false

/-!
# The rules of the language

What a correct program is, by rules that have no error types: `HasType` for expressions,
`StmtConforms` for statements, and `Conforms` for declarations and whole trees. Checking reports
nothing exactly if the program follows the rules, and then all the types it records are free of
errors.

One direction goes through `Typed`, which is what silence establishes. For the other, the types that
the rules give are the types that checking computes, as long as the names in reach have types without
errors; an entry whose type is no error is not reported.
-/

namespace MipsCompiler

namespace Ty

mutual

def isClean : Ty → Bool
  | int => true
  | float => true
  | bool => true
  | void => true
  | array _ base => isClean base
  | address base => isClean base
  | func params result => areClean params && isClean result
  | error _ => false

def areClean : List Ty → Bool
  | [] => true
  | t :: ts => isClean t && areClean ts

end

theorem isClean_of_isScalar {t : Ty} (h : t.isScalar) : t.isClean := by
  cases t with
  | int | float | bool => rfl
  | _ => nomatch h

theorem isError_of_isClean {t : Ty} (h : t.isClean) : t.isError = false := by
  cases t with
  | error => nomatch h
  | _ => rfl

theorem areClean_iff {ts : List Ty} : areClean ts ↔ ∀ t ∈ ts, t.isClean := by
  induction ts with
  | nil => simp [areClean]
  | cons t ts ih => rw [areClean, Bool.and_eq_true, ih, List.forall_mem_cons]

theorem isClean_of_size? {t : Ty} (h : t.size?.isSome) : t.isClean := by
  cases t with
  | int | float | bool => rfl
  | array extent base =>
    have hbase : base.isClean := isClean_of_size? (isSome_size?_of_array h)
    exact hbase
  | _ => cases h

theorem innermost_of_size? {t : Ty} (h : t.size?.isSome) : t.innermost.isScalar := by
  cases t with
  | int | float | bool => rfl
  | array extent base =>
    have hbase : base.innermost.isScalar := innermost_of_size? (isSome_size?_of_array h)
    exact hbase
  | _ => cases h

theorem assign_scalar {t : Ty} (h : t.isScalar) : assign (address t) t = t := by
  cases t with
  | int | float | bool => rfl
  | _ => nomatch h

theorem combine?_cases {op : Operation} {left right t : Ty} (h : combine? op left right = some t) :
    left = right ∧
      (op ∈ [.add, .sub, .mul, .div] ∧ left ∈ [int, float] ∧ t = left ∨
        op ∈ [.and, .or] ∧ left = bool ∧ t = bool ∨ op = .compare ∧ left.isScalar ∧ t = bool) := by
  unfold combine? at h
  split at h <;> cases h <;> simp [isScalar]

end Ty

/-- The types of expressions. A name has the address of what it was declared as. -/
inductive HasType (symbols : SymbolTable) : Expr → Ty → Prop
  | literal {node : Node} {value : Literal} : HasType symbols (.literal node value) value.ty
  | name {node : Node} {id : SymbolId} :
      HasType symbols (.address node id) (.address (symbols.get id).ty)
  | load {node : Node} {place : Expr} {ty : Ty} :
      HasType symbols place (.address ty) → HasType symbols (.deref node place) ty
  | elementPlace {node : Node} {base offset : Expr} {extent : Nat} {ty : Ty} :
      HasType symbols base (.address (.array extent ty)) → HasType symbols offset .int →
      HasType symbols (.index node base offset) (.address ty)
  | element {node : Node} {base offset : Expr} {extent : Nat} {ty : Ty} :
      HasType symbols base (.array extent ty) → HasType symbols offset .int →
      HasType symbols (.index node base offset) ty
  | arithmetic {node : Node} {op : BinaryOp} {left right : Expr} {ty : Ty} :
      op ∈ [.add, .sub, .mul, .div] → ty ∈ [.int, .float] →
      HasType symbols left ty → HasType symbols right ty →
      HasType symbols (.binary node op left right) ty
  | logic {node : Node} {op : BinaryOp} {left right : Expr} :
      op ∈ [.and, .or] → HasType symbols left .bool → HasType symbols right .bool →
      HasType symbols (.binary node op left right) .bool
  | comparison {node : Node} {comparison : Comparison} {left right : Expr} {ty : Ty} :
      ty.isScalar → HasType symbols left ty → HasType symbols right ty →
      HasType symbols (.binary node (.compare comparison) left right) .bool
  | negation {node : Node} {operand : Expr} :
      HasType symbols operand .bool → HasType symbols (.not node operand) .bool
  | call {node : Node} {callee : SymbolId} {args : List Expr} {params : List Ty} {result : Ty} :
      (symbols.get callee).ty = .func params result → args.length = params.length →
      (∀ pair ∈ args.zip params, HasType symbols pair.1 pair.2) →
      HasType symbols (.call node callee args) result

/-- The statements of a function that returns `result`. -/
inductive StmtConforms (symbols : SymbolTable) (result : Ty) : StmtPhrase → Prop
  | var {decl : VarDecl} :
      (symbols.get decl.symbol).ty.isScalar → StmtConforms symbols result (.stmt (.var decl))
  | call {node : Node} {callee : SymbolId} {args : List Expr} {ty : Ty} :
      HasType symbols (.call node callee args) ty →
      StmtConforms symbols result (.stmt (.call node callee args))
  | assign {node : Node} {target source : Expr} {ty : Ty} :
      ty.isScalar → HasType symbols target (.address ty) → HasType symbols source ty →
      StmtConforms symbols result (.stmt (.assign node target source))
  | branch {node : Node} {condition : Expr} {thenBlock elseBlock : Block} :
      HasType symbols condition .bool → StmtConforms symbols result (.block thenBlock) →
      StmtConforms symbols result (.block elseBlock) →
      StmtConforms symbols result (.stmt (.branch node condition thenBlock elseBlock))
  | loop {node : Node} {condition : Expr} {body : Block} :
      HasType symbols condition .bool → StmtConforms symbols result (.block body) →
      StmtConforms symbols result (.stmt (.loop node condition body))
  | ret {node : Node} {value : Expr} :
      HasType symbols value result → StmtConforms symbols result (.stmt (.ret node value))
  | block {node : Node} {stmts : List Stmt} :
      StmtConforms symbols result (.stmts stmts) →
      StmtConforms symbols result (.block (.mk node stmts))
  | nil : StmtConforms symbols result (.stmts [])
  | cons {s : Stmt} {ss : List Stmt} :
      StmtConforms symbols result (.stmt s) → StmtConforms symbols result (.stmts ss) →
      StmtConforms symbols result (.stmts (s :: ss))

/-- A function from `params` to `result`, in a program that starts in `entry`. -/
structure FuncDef.Conforms (symbols : SymbolTable) (entry : String) (definition : FuncDef)
    (params : List Ty) (result : Ty) : Prop where
  signature : (symbols.get definition.symbol).ty = .func params result
  starts : (symbols.get definition.symbol).name = entry → params = [] ∧ result = .void
  others : (symbols.get definition.symbol).name ≠ entry →
    (∀ t ∈ params, t.isScalar) ∧ (result.isScalar ∨ result = .void)
  body : StmtConforms symbols result (.block definition.body)
  returns : result ≠ .void → ¬ FallsThrough (.block definition.body)

def Decl.Conforms (symbols : SymbolTable) (entry : String) : Decl → Prop
  | .var decl => (symbols.get decl.symbol).ty.isScalar
  | .array decl =>
    (symbols.get decl.symbol).ty.innermost.isScalar ∧ (symbols.get decl.symbol).ty.size?.isSome
  | .func definition => ∃ params result, definition.Conforms symbols entry params result

def Tree.Conforms (symbols : SymbolTable) (entry : String) : Tree → Prop
  | .program _ decls => ∀ decl ∈ decls, decl.Conforms symbols entry
  | .error _ _ => False

section

variable {symbols : SymbolTable} {entry : String} {reach : List SymbolId}

def Judgement.Follows (symbols : SymbolTable) : Judgement → Prop
  | .place e ty => HasType symbols e (.address ty)
  | .value e ty => HasType symbols e ty
  | .values es tys => es.length = tys.length ∧ ∀ pair ∈ es.zip tys, HasType symbols pair.1 pair.2

theorem HasType.binary {node : Node} {op : BinaryOp} {left right : Expr} {leftTy rightTy ty : Ty}
    (hleft : HasType symbols left leftTy) (hright : HasType symbols right rightTy)
    (h : Ty.combine? op.operation leftTy rightTy = some ty) :
    HasType symbols (.binary node op left right) ty := by
  obtain ⟨rfl, harithmetic | hlogic | hcompare⟩ := Ty.combine?_cases h
  · obtain ⟨hop, hty, rfl⟩ := harithmetic
    refine .arithmetic ?_ hty hleft hright
    cases op <;> simp_all [BinaryOp.operation]
  · obtain ⟨hop, rfl, rfl⟩ := hlogic
    refine .logic ?_ hleft hright
    cases op <;> simp_all [BinaryOp.operation]
  · obtain ⟨hop, hty, rfl⟩ := hcompare
    cases op with
    | compare => exact .comparison hty hleft hright
    | _ => nomatch hop

theorem WellTyped.follows {judgement : Judgement} (h : WellTyped symbols reach judgement) :
    judgement.Follows symbols := by
  induction h with
  | name => exact .name
  | element _ _ ihbase ihoffset => exact .elementPlace ihbase ihoffset
  | literal => exact .literal
  | load _ _ ih => exact .load ih
  | binary _ _ hcombine ihleft ihright => exact .binary ihleft ihright hcombine
  | negation _ ih => exact .negation ih
  | call _ hcallee _ _ ih => exact .call hcallee ih.1 ih.2
  | nil => exact ⟨rfl, fun _ h => absurd h List.not_mem_nil⟩
  | cons _ _ _ ih ihs => exact ⟨congrArg (· + 1) ihs.1, List.forall_mem_cons.2 ⟨ih, ihs.2⟩⟩

theorem StmtTyped.conforms {result : Ty} {phrase : StmtPhrase}
    (h : StmtTyped symbols reach result phrase) : StmtConforms symbols result phrase := by
  induction h with
  | var hscalar => exact .var hscalar
  | call hcall => exact .call hcall.follows
  | assign htarget hsource hscalar => exact .assign hscalar htarget.follows hsource.follows
  | branch hcondition _ _ ihthen ihelse => exact .branch hcondition.follows ihthen ihelse
  | loop hcondition _ ih => exact .loop hcondition.follows ih
  | ret hvalue => exact .ret hvalue.follows
  | block _ ih => exact .block ih
  | nil => exact .nil
  | cons _ _ ih ihs => exact .cons ih ihs

theorem FuncDef.Typed.conforms {definition : FuncDef} {result : Ty}
    (h : definition.Typed symbols entry reach result) :
    definition.Conforms symbols entry (definition.params.map fun id => (symbols.get id).ty)
      result where
  signature := h.signature
  starts hname := by
    obtain ⟨hparams, hresult⟩ := h.entry hname
    exact ⟨List.map_eq_nil_iff.2 hparams, hresult⟩
  others _ := by
    refine ⟨List.forall_mem_map.2 h.params, ?_⟩
    cases result with
    | void => exact .inr rfl
    | _ => exact .inl (Ty.isScalar_of_isResult h.isResult rfl)
  body := h.body.conforms
  returns hvoid := by
    apply (StmtPhrase.returns_iff (.block definition.body)).1
    apply h.returns
    cases result with
    | void => exact absurd rfl hvoid
    | _ => rfl

theorem Typed.conforms {decls : List Decl} (h : Typed symbols entry reach decls) :
    ∀ decl ∈ decls, decl.Conforms symbols entry := by
  induction h with
  | nil => exact fun _ h => absurd h List.not_mem_nil
  | var hscalar _ ih => exact List.forall_mem_cons.2 ⟨hscalar, ih⟩
  | array hsize _ ih => exact List.forall_mem_cons.2 ⟨⟨Ty.innermost_of_size? hsize, hsize⟩, ih⟩
  | func hfunc _ ih => exact List.forall_mem_cons.2 ⟨⟨_, _, hfunc.conforms⟩, ih⟩

end

/-- An entry without a report, of a type without errors. -/
def TypeEntry.IsClean (x : TypeEntry) : Prop :=
  x.ty.isClean ∧ x.report = none

def Clean (entries : List TypeEntry) : Prop :=
  ∀ x ∈ entries, x.IsClean

namespace Clean

variable {entries others : List TypeEntry}

theorem nil : Clean [] :=
  fun _ h => absurd h List.not_mem_nil

theorem append : Clean (entries ++ others) ↔ Clean entries ∧ Clean others :=
  List.forall_mem_append

theorem one {x : TypeEntry} : Clean [x] ↔ x.IsClean :=
  List.forall_mem_singleton

theorem concat {x : TypeEntry} (h : Clean entries) (hx : x.IsClean) : Clean (entries ++ [x]) :=
  append.2 ⟨h, one.2 hx⟩

end Clean

namespace TypeEntry

theorem silent_isClean {ty : Ty} (h : ty.isClean) (node : Node) : (silent node ty).IsClean :=
  ⟨h, rfl⟩

theorem computed_isClean {ty : Ty} (h : ty.isClean) (node : Node) (inputs : List Ty) :
    (computed node ty inputs).IsClean := by
  refine ⟨h, ?_⟩
  cases ty with
  | error => nomatch h
  | _ => rfl

theorem declared_isClean {ty : Ty} (h : ty.isClean) (symbol : Symbol) (node : Node) :
    (declared symbol node ty).IsClean := by
  unfold declared
  split
  · exact silent_isClean h node
  · exact computed_isClean h node []

end TypeEntry

/-- Checking computes this type for the expression, with no errors inside. -/
structure Computes (symbols : SymbolTable) (e : Expr) (ty : Ty) : Prop where
  ty_eq : e.ty symbols = ty
  clean : ty.isClean
  entries : Clean (e.entries symbols)

namespace Computes

variable {symbols : SymbolTable}

theorem isError {e : Expr} {ty : Ty} (h : Computes symbols e ty) : ty.isError = false :=
  Ty.isError_of_isClean h.clean

theorem of_parts {e : Expr} {ty : Ty} {parts : List TypeEntry} (hparts : Clean parts)
    (hentries : e.entries symbols = parts ++ [e.entry symbols]) (hty : e.ty symbols = ty)
    (hclean : ty.isClean) : Computes symbols e ty := by
  refine ⟨hty, hclean, ?_⟩
  rw [hentries]
  subst hty
  refine Clean.append.2 ⟨hparts, Clean.one.2 ?_⟩
  cases e with
  | address node => exact TypeEntry.silent_isClean hclean node
  | _ => exact TypeEntry.computed_isClean hclean _ _

theorem binary {node : Node} {op : BinaryOp} {left right : Expr} {leftTy rightTy ty : Ty}
    (hleft : Computes symbols left leftTy) (hright : Computes symbols right rightTy)
    (hcombine : Ty.combine? op.operation leftTy rightTy = some ty) :
    Computes symbols (.binary node op left right) ty := by
  have hty : (Expr.binary node op left right).ty symbols = ty := by
    rw [Expr.ty, hleft.ty_eq, hright.ty_eq, Ty.binary, hcombine]
    refine Ty.getD_of_defined ?_ _ _
    simp [hleft.isError, hright.isError]
  have hclean := Ty.isClean_of_isScalar (Ty.combine?_eq hcombine).2.2
  exact .of_parts (Clean.append.2 ⟨hleft.entries, hright.entries⟩) rfl hty hclean

theorem args {es : List Expr} {tys : List Ty} (hlength : es.length = tys.length)
    (h : ∀ pair ∈ es.zip tys, Computes symbols pair.1 pair.2) :
    Expr.tys symbols es = tys ∧ (∀ t ∈ tys, t.isClean) ∧ Clean (Expr.entriesAll symbols es) := by
  induction es generalizing tys with
  | nil =>
    obtain rfl := List.length_eq_zero_iff.1 hlength.symm
    exact ⟨rfl, fun _ h => absurd h List.not_mem_nil, Clean.nil⟩
  | cons e es ih =>
    cases tys with
    | nil => nomatch hlength
    | cons ty tys =>
      obtain ⟨hfirst, hrest⟩ := List.forall_mem_cons.1 h
      obtain ⟨htys, hclean, hentries⟩ := ih (Nat.succ.inj hlength) hrest
      refine ⟨?_, List.forall_mem_cons.2 ⟨hfirst.clean, hclean⟩,
        Clean.append.2 ⟨hfirst.entries, hentries⟩⟩
      rw [Expr.tys, hfirst.ty_eq, htys]

theorem call {node : Node} {callee : SymbolId} {es : List Expr} {params : List Ty} {result : Ty}
    (hcallee : (symbols.get callee).ty = .func params result)
    (hclean : (symbols.get callee).ty.isClean) (hlength : es.length = params.length)
    (h : ∀ pair ∈ es.zip params, Computes symbols pair.1 pair.2) :
    Computes symbols (.call node callee es) result := by
  obtain ⟨htys, hparams, hentries⟩ := args hlength h
  have hty : (Expr.call node callee es).ty symbols = result := by
    have hdefined : Ty.callResult? (.func params result) params = some result := by
      simp [Ty.callResult?]
    rw [Expr.ty, hcallee, htys, Ty.call, hdefined]
    refine Ty.getD_of_defined (List.forall_mem_cons.2 ⟨rfl, fun t ht => ?_⟩) _ _
    exact Ty.isError_of_isClean (hparams t ht)
  rw [hcallee] at hclean
  have hresult : result.isClean := (Bool.and_eq_true_iff.1 hclean).2
  exact .of_parts hentries rfl hty hresult

end Computes

section

variable {symbols : SymbolTable} {entry : String} {reach : List SymbolId}

theorem Expr.mem_mentionsAll {e : Expr} {es : List Expr} {id : SymbolId} (he : e ∈ es)
    (hid : id ∈ e.mentions) : id ∈ Expr.mentionsAll es := by
  induction he with
  | head => exact List.mem_append_left _ hid
  | tail _ _ ih => exact List.mem_append_right _ ih

/-- Where the names have types without errors, the type by the rules is the one computed. -/
theorem HasType.computes {e : Expr} {ty : Ty} (h : HasType symbols e ty)
    (hmentions : ∀ id ∈ e.mentions, (symbols.get id).ty.isClean) : Computes symbols e ty := by
  induction h with
  | @literal node value =>
    have hclean : value.ty.isClean := by cases value <;> rfl
    exact .of_parts Clean.nil rfl rfl hclean
  | @name node id =>
    have hclean := hmentions id List.mem_cons_self
    have hty : (Expr.address node id).ty symbols = .address (symbols.get id).ty := by
      rw [Expr.ty]
      cases hdeclared : (symbols.get id).ty with
      | error => rw [hdeclared] at hclean; nomatch hclean
      | _ => rfl
    exact .of_parts Clean.nil rfl hty hclean
  | @load node place ty _ ih =>
    have hplace := ih hmentions
    have hty : (Expr.deref node place).ty symbols = ty := by
      rw [Expr.ty, hplace.ty_eq]
      rfl
    exact .of_parts hplace.entries rfl hty hplace.clean
  | @elementPlace node base offset extent ty _ _ ihbase ihoffset =>
    obtain ⟨hmbase, hmoffset⟩ := List.forall_mem_append.1 hmentions
    have hbase := ihbase hmbase
    have hoffset := ihoffset hmoffset
    have hty : (Expr.index node base offset).ty symbols = .address ty := by
      rw [Expr.ty, hbase.ty_eq, hoffset.ty_eq]
      rfl
    exact .of_parts (Clean.append.2 ⟨hbase.entries, hoffset.entries⟩) rfl hty hbase.clean
  | @element node base offset extent ty _ _ ihbase ihoffset =>
    obtain ⟨hmbase, hmoffset⟩ := List.forall_mem_append.1 hmentions
    have hbase := ihbase hmbase
    have hoffset := ihoffset hmoffset
    have hty : (Expr.index node base offset).ty symbols = ty := by
      rw [Expr.ty, hbase.ty_eq, hoffset.ty_eq]
      rfl
    exact .of_parts (Clean.append.2 ⟨hbase.entries, hoffset.entries⟩) rfl hty hbase.clean
  | arithmetic hop hty _ _ ihleft ihright =>
    obtain ⟨hmleft, hmright⟩ := List.forall_mem_append.1 hmentions
    refine .binary (ihleft hmleft) (ihright hmright) ?_
    simp only [List.mem_cons, List.not_mem_nil, or_false] at hop hty
    rcases hop with rfl | rfl | rfl | rfl <;> rcases hty with rfl | rfl <;> rfl
  | logic hop _ _ ihleft ihright =>
    obtain ⟨hmleft, hmright⟩ := List.forall_mem_append.1 hmentions
    refine .binary (ihleft hmleft) (ihright hmright) ?_
    simp only [List.mem_cons, List.not_mem_nil, or_false] at hop
    rcases hop with rfl | rfl <;> rfl
  | @comparison node comparison left right ty hscalar _ _ ihleft ihright =>
    obtain ⟨hmleft, hmright⟩ := List.forall_mem_append.1 hmentions
    refine .binary (ihleft hmleft) (ihright hmright) ?_
    cases ty with
    | int | float | bool => rfl
    | _ => nomatch hscalar
  | @negation node operand _ ih =>
    have hoperand := ih hmentions
    have hty : (Expr.not node operand).ty symbols = .bool := by
      rw [Expr.ty, hoperand.ty_eq]
      rfl
    exact .of_parts hoperand.entries rfl hty rfl
  | @call node callee args params result hcallee hlength _ ih =>
    obtain ⟨hclean, hmargs⟩ := List.forall_mem_cons.1 hmentions
    refine .call hcallee hclean hlength fun pair hpair => ih pair hpair fun id hid => ?_
    exact hmargs id (Expr.mem_mentionsAll (List.of_mem_zip hpair).1 hid)

theorem Symbol.variableTy_eq {symbol : Symbol} (h : symbol.ty.isScalar) :
    symbol.variableTy = symbol.ty := by
  rw [variableTy, h]
  rfl

theorem VarDecl.variableEntry_isClean {decl : VarDecl}
    (h : (symbols.get decl.symbol).ty.isScalar) : (decl.variableEntry symbols).IsClean := by
  apply TypeEntry.declared_isClean
  rw [Symbol.variableTy_eq h]
  exact Ty.isClean_of_isScalar h

theorem StmtConforms.clean {result : Ty} {phrase : StmtPhrase} (name : String)
    (h : StmtConforms symbols result phrase)
    (hmentions : ∀ id ∈ phrase.mentions, (symbols.get id).ty.isClean) :
    Clean (phrase.entries ⟨symbols, name, some result⟩) := by
  induction h with
  | var hscalar => exact Clean.one.2 (VarDecl.variableEntry_isClean hscalar)
  | call hcall => exact (hcall.computes hmentions).entries
  | @assign node target source ty hscalar htarget hsource =>
    obtain ⟨hmtarget, hmsource⟩ := List.forall_mem_append.1 hmentions
    have htarget := htarget.computes hmtarget
    have hsource := hsource.computes hmsource
    refine (Clean.append.2 ⟨htarget.entries, hsource.entries⟩).concat ?_
    apply TypeEntry.computed_isClean
    rw [htarget.ty_eq, hsource.ty_eq, Ty.assign_scalar hscalar]
    exact hsource.clean
  | @branch node condition thenBlock elseBlock hcondition _ _ ihthen ihelse =>
    obtain ⟨hparts, hmelse⟩ := List.forall_mem_append.1 hmentions
    obtain ⟨hmcondition, hmthen⟩ := List.forall_mem_append.1 hparts
    have hcondition := hcondition.computes hmcondition
    refine (Clean.append.2 ⟨Clean.append.2 ⟨hcondition.entries, ihthen hmthen⟩,
      ihelse hmelse⟩).concat ?_
    apply TypeEntry.computed_isClean
    rw [hcondition.ty_eq]
    rfl
  | @loop node condition body hcondition _ ih =>
    obtain ⟨hmcondition, hmbody⟩ := List.forall_mem_append.1 hmentions
    have hcondition := hcondition.computes hmcondition
    refine (Clean.append.2 ⟨hcondition.entries, ih hmbody⟩).concat ?_
    apply TypeEntry.computed_isClean
    rw [hcondition.ty_eq]
    rfl
  | @ret node value hvalue =>
    have hvalue := hvalue.computes hmentions
    refine hvalue.entries.concat ?_
    apply TypeEntry.computed_isClean
    rw [hvalue.ty_eq]
    simpa [Promise.returnTy] using hvalue.clean
  | block _ ih => exact (ih hmentions).concat (TypeEntry.silent_isClean rfl _)
  | nil => exact Clean.nil
  | cons _ _ ih ihs =>
    obtain ⟨hmfirst, hmrest⟩ := List.forall_mem_append.1 hmentions
    exact Clean.append.2 ⟨ih hmfirst, ihs hmrest⟩

theorem StmtConforms.locals_scalar {result : Ty} {phrase : StmtPhrase}
    (h : StmtConforms symbols result phrase) :
    ∀ id ∈ phrase.locals, (symbols.get id).ty.isScalar := by
  induction h with
  | var hscalar => exact List.forall_mem_singleton.2 hscalar
  | call | assign | ret | nil => exact fun _ h => absurd h List.not_mem_nil
  | branch _ _ _ ihthen ihelse =>
    rw [StmtPhrase.locals, Stmt.locals, List.map_append]
    exact List.forall_mem_append.2 ⟨ihthen, ihelse⟩
  | loop _ _ ih => exact ih
  | block _ ih => exact ih
  | cons _ _ ih ihs =>
    rw [StmtPhrase.locals, Stmt.localsAll, List.map_append]
    exact List.forall_mem_append.2 ⟨ih, ihs⟩

theorem parameterFault_of_isScalar {params : List Ty} (h : ∀ t ∈ params, t.isScalar)
    (name : String) (slot : Nat) : parameterFault name slot params = none := by
  induction params generalizing slot with
  | nil => rfl
  | cons t params ih =>
    obtain ⟨hfirst, hrest⟩ := List.forall_mem_cons.1 h
    cases t with
    | int | float | bool => exact ih hrest (slot + 1)
    | _ => nomatch hfirst

namespace FuncDef.Conforms

variable {definition : FuncDef} {params : List Ty} {result : Ty}

theorem types (h : definition.Conforms symbols entry params result) :
    (∀ t ∈ params, t.isScalar) ∧ (result.isScalar ∨ result = .void) := by
  by_cases hname : (symbols.get definition.symbol).name = entry
  · obtain ⟨rfl, rfl⟩ := h.starts hname
    exact ⟨fun _ h => absurd h List.not_mem_nil, .inr rfl⟩
  · exact h.others hname

theorem result_isClean (h : definition.Conforms symbols entry params result) : result.isClean := by
  rcases h.types.2 with hscalar | rfl
  · exact Ty.isClean_of_isScalar hscalar
  · rfl

theorem symbol_isClean (h : definition.Conforms symbols entry params result) :
    (symbols.get definition.symbol).ty.isClean := by
  rw [h.signature]
  refine Bool.and_eq_true_iff.2 ⟨Ty.areClean_iff.2 fun t ht => ?_, h.result_isClean⟩
  exact Ty.isClean_of_isScalar (h.types.1 t ht)

theorem signatureTy_eq (h : definition.Conforms symbols entry params result) :
    (symbols.get definition.symbol).signatureTy entry = (symbols.get definition.symbol).ty := by
  have hfault : signatureFault entry (symbols.get definition.symbol).name params result = none := by
    unfold signatureFault
    by_cases hname : (symbols.get definition.symbol).name = entry
    · obtain ⟨rfl, rfl⟩ := h.starts hname
      rw [if_pos hname]
      rfl
    · rw [if_neg hname, parameterFault_of_isScalar h.types.1]
      simp [Ty.isError_of_isClean h.result_isClean]
  simp only [Symbol.signatureTy, h.signature, hfault]

theorem promisedResult_eq (h : definition.Conforms symbols entry params result) :
    (symbols.get definition.symbol).promisedResult = some result := by
  simp [Symbol.promisedResult, h.signature, Ty.isError_of_isClean h.result_isClean]

theorem ty_eq (h : definition.Conforms symbols entry params result) :
    definition.ty symbols entry = (symbols.get definition.symbol).ty := by
  have hreturns : (symbols.get definition.symbol).owesValue → definition.body.returns := by
    intro howes
    apply (StmtPhrase.returns_iff (.block definition.body)).2
    apply h.returns
    rintro rfl
    simp [Symbol.owesValue, h.promisedResult_eq, Ty.isVoid] at howes
  simp only [FuncDef.ty, h.signatureTy_eq]
  split
  · next hmissing =>
    simp only [Bool.and_eq_true, Bool.not_eq_true'] at hmissing
    exact absurd (hreturns hmissing.1.2) (by simp [hmissing.2])
  · rfl

theorem mentions_isClean (h : definition.Conforms symbols entry params result)
    (hscoped : definition.Scoped symbols (definition.symbol :: reach))
    (hreach : ∀ id ∈ reach, (symbols.get id).ty.isClean) :
    ∀ id ∈ definition.body.mentions, (symbols.get id).ty.isClean := by
  intro id hid
  rcases hscoped.mentions id hid with hparam | hlocal | houter
  · obtain ⟨name, hty⟩ := hscoped.signature
    rw [h.signature] at hty
    have hparams := (Ty.func.inj hty).1
    refine Ty.isClean_of_isScalar (h.types.1 _ ?_)
    rw [hparams]
    exact List.mem_map_of_mem hparam
  · exact Ty.isClean_of_isScalar (h.body.locals_scalar id hlocal)
  · rcases List.mem_cons.1 houter with rfl | houter
    · exact h.symbol_isClean
    · exact hreach id houter

theorem clean (h : definition.Conforms symbols entry params result)
    (hscoped : definition.Scoped symbols (definition.symbol :: reach))
    (hreach : ∀ id ∈ reach, (symbols.get id).ty.isClean) :
    Clean (definition.entries symbols entry) := by
  have hbody := h.body.clean (symbols.get definition.symbol).name (h.mentions_isClean hscoped hreach)
  have hpromise : definition.promise symbols =
      ⟨symbols, (symbols.get definition.symbol).name, some result⟩ := by
    rw [FuncDef.promise, h.promisedResult_eq]
  rw [FuncDef.entries, hpromise]
  refine hbody.concat ?_
  apply TypeEntry.declared_isClean
  rw [h.ty_eq]
  exact h.symbol_isClean

end FuncDef.Conforms

theorem Symbol.arrayTy_eq {symbol : Symbol} (hscalar : symbol.ty.innermost.isScalar)
    (hsize : symbol.ty.size?.isSome) : symbol.arrayTy = symbol.ty := by
  obtain ⟨bytes, hbytes⟩ := Option.isSome_iff_exists.1 hsize
  simp [arrayTy, hscalar, hbytes]

theorem Decl.Conforms.symbol_isClean {decl : Decl} (h : decl.Conforms symbols entry) :
    (symbols.get decl.symbol).ty.isClean := by
  cases decl with
  | var decl => exact Ty.isClean_of_isScalar h
  | array decl => exact Ty.isClean_of_size? h.2
  | func definition =>
    obtain ⟨params, result, h⟩ := h
    exact h.symbol_isClean

theorem Decl.Conforms.clean {decl : Decl} (h : decl.Conforms symbols entry)
    (hscoped : decl.Scoped symbols (decl.symbol :: reach))
    (hreach : ∀ id ∈ reach, (symbols.get id).ty.isClean) :
    Clean (decl.entries symbols entry) := by
  cases decl with
  | var decl => exact Clean.one.2 (VarDecl.variableEntry_isClean h)
  | array decl =>
    obtain ⟨hscalar, hsize⟩ := h
    refine Clean.one.2 (TypeEntry.declared_isClean ?_ _ _)
    rw [Symbol.arrayTy_eq hscalar hsize]
    exact Ty.isClean_of_size? hsize
  | func definition =>
    obtain ⟨params, result, h⟩ := h
    exact h.clean hscoped hreach

theorem Scoped.clean {isName : String → Prop} {decls : List Decl}
    (h : Scoped symbols isName reach decls)
    (hreach : ∀ id ∈ reach, (symbols.get id).ty.isClean)
    (hconforms : ∀ decl ∈ decls, decl.Conforms symbols entry) :
    Clean (decls.flatMap (Decl.entries symbols entry)) := by
  induction h with
  | nil => exact Clean.nil
  | cons _ _ hdecl _ ih =>
    obtain ⟨hfirst, hrest⟩ := List.forall_mem_cons.1 hconforms
    rw [List.flatMap_cons]
    refine Clean.append.2 ⟨hfirst.clean hdecl hreach, ih ?_ hrest⟩
    exact List.forall_mem_cons.2 ⟨hfirst.symbol_isClean, hreach⟩

end

theorem TypeTable.mem_of_insertAll {types : List (NodeId × Ty)} {table : TypeTable}
    {x : NodeId × Ty} (h : x ∈ (table.insertAll types).entries) : x ∈ table.entries ∨ x ∈ types := by
  induction types generalizing table with
  | nil => exact .inl h
  | cons entry types ih =>
    rcases ih h with hold | hnew
    · change x ∈ (table.insert entry.1 entry.2).2.entries at hold
      unfold insert at hold
      split at hold
      · exact .inl hold
      · rcases List.mem_cons.1 hold with rfl | hold
        · exact .inr List.mem_cons_self
        · exact .inl hold
    · exact .inr (List.mem_cons_of_mem _ hnew)

theorem TypeTable.mem_of_get? {types : List (NodeId × Ty)} {id : NodeId} {ty : Ty}
    (h : (ofList types).get? id = some ty) : (id, ty) ∈ types := by
  obtain ⟨before, after, hentries, _⟩ := List.lookup_eq_some_iff.1 h
  have hmem : (id, ty) ∈ (empty.insertAll types).entries := by
    change _ ∈ (ofList types).entries
    simp [hentries]
  exact (mem_of_insertAll hmem).resolve_left List.not_mem_nil

theorem Scope.initial_clean : ∀ id ∈ initial.current.ids,
    id < initial.symbols.length ∧ (initial.symbols.get id).ty.isClean := by
  decide

/-- A program whose names are all resolved is checked without a report exactly if it follows the
rules, and then no type that is recorded contains an error. -/
theorem check_follows_rules {σ : Type} [TokenStream σ] (stream : σ) (entry : String)
    (hparse : (parse stream).log = []) :
    ((check (parse stream).symbols entry (parse stream).tree).log = [] ↔
        (parse stream).tree.Conforms (parse stream).symbols entry) ∧
      ((check (parse stream).symbols entry (parse stream).tree).log = [] →
        ∀ id ty, (check (parse stream).symbols entry (parse stream).tree).types.get? id = some ty →
          ty.isClean) := by
  obtain ⟨node, decls, htree, hbuiltins, hscoped⟩ :=
    @parse_scoped σ _ stream hparse (fun _ => True) fun _ _ _ => trivial
  have hdeclarable : ∀ id ∈ Scope.initial.current.ids,
      ((parse stream).symbols.get id).ty.isDeclarable := by
    intro id hid
    obtain ⟨hbound, hdeclarable⟩ := Scope.initial_declarable id hid
    rw [SymbolTable.get_of_prefix hbuiltins hbound]
    exact hdeclarable
  have hclean : ∀ id ∈ Scope.initial.current.ids, ((parse stream).symbols.get id).ty.isClean := by
    intro id hid
    obtain ⟨hbound, hclean⟩ := Scope.initial_clean id hid
    rw [SymbolTable.get_of_prefix hbuiltins hbound]
    exact hclean
  have hsound (h : (check (parse stream).symbols entry (parse stream).tree).log = []) :
      (parse stream).tree.Conforms (parse stream).symbols entry := by
    have hsilent := Silent.of_filterMap h
    rw [htree] at hsilent ⊢
    exact (hscoped.typed hdeclarable (Silent.append.1 hsilent).1).conforms
  have hcomplete (h : (parse stream).tree.Conforms (parse stream).symbols entry) :
      Clean ((parse stream).tree.entries (parse stream).symbols entry) := by
    rw [htree] at h ⊢
    exact (hscoped.clean hclean h).concat (TypeEntry.silent_isClean rfl node)
  refine ⟨⟨hsound, fun h => ?_⟩, fun h id ty hget => ?_⟩
  · exact List.filterMap_eq_nil_iff.2 fun x hx => (hcomplete h x hx).2
  · obtain ⟨x, hx, hentry⟩ := List.mem_map.1 (TypeTable.mem_of_get? hget)
    cases hentry
    exact (hcomplete (hsound h) x hx).1

def doubledElement : String :=
  "array table : int[8]; func last() : int \x7b return table[7] + table[7]; \x7d"

def halfReturning : String :=
  "func sign(a : int) : int \x7b if a > 0 \x7b return 1; \x7d \x7d"

theorem doubledElement_follows_rules :
    (parse (Scanner.ofText doubledElement)).tree.Conforms
        (parse (Scanner.ofText doubledElement)).symbols "main" ∧
      (∀ id ty, (check (parse (Scanner.ofText doubledElement)).symbols "main"
          (parse (Scanner.ofText doubledElement)).tree).types.get? id = some ty → ty.isClean) ∧
      ¬ (parse (Scanner.ofText halfReturning)).tree.Conforms
        (parse (Scanner.ofText halfReturning)).symbols "main" := by
  have hfull : (parse (Scanner.ofText doubledElement)).log = [] ∧
      (check (parse (Scanner.ofText doubledElement)).symbols "main"
        (parse (Scanner.ofText doubledElement)).tree).log = [] := by
    decide +kernel
  have hhalf : (parse (Scanner.ofText halfReturning)).log = [] ∧
      (check (parse (Scanner.ofText halfReturning)).symbols "main"
        (parse (Scanner.ofText halfReturning)).tree).log ≠ [] := by
    decide +kernel
  obtain ⟨hrules, hclean⟩ := check_follows_rules (Scanner.ofText doubledElement) "main" hfull.1
  obtain ⟨hrules', _⟩ := check_follows_rules (Scanner.ofText halfReturning) "main" hhalf.1
  rw [← hrules, ← hrules']
  exact ⟨hfull.2, hclean hfull.2, hhalf.2⟩

end MipsCompiler
