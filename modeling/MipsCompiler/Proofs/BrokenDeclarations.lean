import MipsCompiler.Proofs.Parsing.DeclaredErrors
import MipsCompiler.Proofs.Reports

set_option autoImplicit false

/-!
# Uses of broken declarations

A declaration with an unknown type is reported where it stands. A variable or a parameter then has an
error type, and nothing that it is used in is reported. An array or a function does not have an error
type itself: the error is inside of its type, at the elements or at the result. It comes out where an
element is loaded or the function is called with fitting arguments, and there it is reported again,
with the same message. These are the only uses that repeat an error of a declaration. Every other report
at an expression is worded anew from the types of its operands.
-/

namespace MipsCompiler

namespace Expr

def root? : Expr → Option SymbolId
  | .address _ symbol => some symbol
  | .index _ base _ => base.root?
  | _ => none

def offsets : Expr → List Expr
  | .index _ base offset => base.offsets ++ [offset]
  | _ => []

end Expr

namespace Subtree

/-- A call is an expression, also if it is made as a statement. -/
def isExpression : Subtree → Bool
  | expr _ => true
  | stmt (.call _ _ _) => true
  | _ => false

/-- The fault of the rule for a node, worded by the types of its operands. -/
def ruleFault? (symbols : SymbolTable) : Subtree → Option TypeFault
  | expr (.deref _ operand) => some (.dereference (operand.ty symbols))
  | expr (.index _ base offset) => some (.index (base.ty symbols) (offset.ty symbols))
  | expr (.binary _ op left right) =>
    some (.operands op.operation (left.ty symbols) (right.ty symbols))
  | expr (.not _ operand) => some (.negation (operand.ty symbols))
  | expr (.call _ callee args) => some (.call (symbols.get callee).ty (Expr.tys symbols args))
  | stmt (.call _ callee args) => some (.call (symbols.get callee).ty (Expr.tys symbols args))
  | _ => none

/-- The node takes an error out of the declared type of a symbol. -/
inductive Uncovers (symbols : SymbolTable) (message : String) : Subtree → SymbolId → Prop
  | element {node : Node} {place : Expr} {id : SymbolId} {extents : List Nat} :
      place.root? = some id → (symbols.get id).ty = Parser.arrayType (.error message) extents →
      extents ≠ [] → place.offsets.length = extents.length →
      (∀ offset ∈ place.offsets, offset.ty symbols = .int) →
      Uncovers symbols message (expr (.deref node place)) id
  | result {node : Node} {callee : SymbolId} {args : List Expr} :
      (symbols.get callee).ty = .func (Expr.tys symbols args) (.error message) →
      (∀ t ∈ Expr.tys symbols args, t.isError = false) →
      Uncovers symbols message (expr (.call node callee args)) callee
  | resultDropped {node : Node} {callee : SymbolId} {args : List Expr} :
      (symbols.get callee).ty = .func (Expr.tys symbols args) (.error message) →
      (∀ t ∈ Expr.tys symbols args, t.isError = false) →
      Uncovers symbols message (stmt (.call node callee args)) callee

end Subtree

/-! ## Formed trees -/

def Decl.isFormed : Decl → Bool
  | .func definition => definition.body.isFormed
  | _ => true

namespace Subtree

def isFormed : Subtree → Bool
  | tree (.program _ decls) => decls.all Decl.isFormed
  | tree (.error _ _) => true
  | decl d => d.isFormed
  | block b => b.isFormed
  | stmt s => s.isFormed
  | expr e => e.isPlace || e.isValue

theorem isFormed_of_isValue {e : Expr} (h : e.isValue) : (expr e).isFormed := by
  rw [isFormed, h, Bool.or_true]

theorem isFormed_of_isPlace {e : Expr} (h : e.isPlace) : (expr e).isFormed := by
  rw [isFormed, h, Bool.true_or]

theorem isFormed_args {args : List Expr} (h : Expr.areValues args) :
    ∀ child ∈ args.map expr, child.isFormed := by
  induction args with
  | nil => exact fun _ hchild => absurd hchild List.not_mem_nil
  | cons e es ih =>
    obtain ⟨hfirst, hrest⟩ := Bool.and_eq_true_iff.1 h
    exact List.forall_mem_cons.2 ⟨isFormed_of_isValue hfirst, ih hrest⟩

theorem isFormed_stmts {stmts : List Stmt} (h : Stmt.areFormed stmts) :
    ∀ child ∈ stmts.map stmt, child.isFormed := by
  induction stmts with
  | nil => exact fun _ hchild => absurd hchild List.not_mem_nil
  | cons s ss ih =>
    obtain ⟨hfirst, hrest⟩ := Bool.and_eq_true_iff.1 h
    exact List.forall_mem_cons.2 ⟨hfirst, ih hrest⟩

theorem isFormed_child {part : Subtree} (h : part.isFormed) :
    ∀ child ∈ part.children, child.isFormed := by
  cases part with
  | tree t =>
    cases t with
    | program node decls =>
      intro child hchild
      obtain ⟨d, hd, rfl⟩ := List.mem_map.1 hchild
      exact List.all_eq_true.1 h d hd
    | error => exact fun _ hchild => absurd hchild List.not_mem_nil
  | decl d =>
    cases d with
    | func definition => exact List.forall_mem_singleton.2 h
    | _ => exact fun _ hchild => absurd hchild List.not_mem_nil
  | block b =>
    cases b with
    | mk node stmts => exact isFormed_stmts h
  | stmt s =>
    cases s with
    | var => exact fun _ hchild => absurd hchild List.not_mem_nil
    | call node callee args => exact isFormed_args h
    | assign node target source =>
      obtain ⟨htarget, hsource⟩ := Bool.and_eq_true_iff.1 h
      exact List.forall_mem_cons.2 ⟨isFormed_of_isPlace htarget,
        List.forall_mem_singleton.2 (isFormed_of_isValue hsource)⟩
    | branch node condition thenBlock elseBlock =>
      obtain ⟨hparts, helse⟩ := Bool.and_eq_true_iff.1 h
      obtain ⟨hcondition, hthen⟩ := Bool.and_eq_true_iff.1 hparts
      exact List.forall_mem_cons.2 ⟨isFormed_of_isValue hcondition,
        List.forall_mem_cons.2 ⟨hthen, List.forall_mem_singleton.2 helse⟩⟩
    | loop node condition body =>
      obtain ⟨hcondition, hbody⟩ := Bool.and_eq_true_iff.1 h
      exact List.forall_mem_cons.2 ⟨isFormed_of_isValue hcondition,
        List.forall_mem_singleton.2 hbody⟩
    | ret node value => exact List.forall_mem_singleton.2 (isFormed_of_isValue h)
  | expr e =>
    cases e with
    | literal | address => exact fun _ hchild => absurd hchild List.not_mem_nil
    | deref node operand => exact List.forall_mem_singleton.2 (isFormed_of_isPlace h)
    | index node base offset =>
      obtain ⟨hbase, hoffset⟩ := Bool.and_eq_true_iff.1 ((Bool.or_false _).symm.trans h)
      exact List.forall_mem_cons.2 ⟨isFormed_of_isPlace hbase,
        List.forall_mem_singleton.2 (isFormed_of_isValue hoffset)⟩
    | binary node op left right =>
      obtain ⟨hleft, hright⟩ := Bool.and_eq_true_iff.1 h
      exact List.forall_mem_cons.2 ⟨isFormed_of_isValue hleft,
        List.forall_mem_singleton.2 (isFormed_of_isValue hright)⟩
    | not node operand => exact List.forall_mem_singleton.2 (isFormed_of_isValue h)
    | call node callee args => exact isFormed_args h

theorem isFormed_of_mem {part other : Subtree} (hpart : part.isFormed) (h : other ∈ part.postorder) :
    other.isFormed :=
  forall_mem_postorder (P := fun part => part.isFormed) (fun _ => isFormed_child) hpart other h

end Subtree

theorem Parser.Items.formed {σ : Type} [TokenStream σ] {s t : ParseState σ} {decls : List Decl}
    (h : Items DerivesDecl s decls t) : ∀ decl ∈ decls, decl.isFormed := by
  induction h with
  | nil => exact fun _ hdecl => absurd hdecl List.not_mem_nil
  | cons hfirst _ ih =>
    refine List.forall_mem_cons.2 ⟨?_, ih⟩
    cases hfirst with
    | var | array => rfl
    | func hfunction =>
      obtain ⟨_, _, _, _, _, _, _, _, hbody⟩ := hfunction
      exact hbody.formed

theorem parse_formed {σ : Type} [TokenStream σ] (stream : σ) :
    ∀ part ∈ (parse stream).parts, part.isFormed := by
  have htree : (Subtree.tree (parse stream).tree).isFormed := by
    cases herror : (parse stream).tree.isError with
    | true =>
      obtain ⟨_, _, htree, _⟩ := parse_error herror
      rw [htree]
      rfl
    | false =>
      obtain ⟨_, _, ⟨hdecls, _⟩, hparse⟩ := parse_derives herror
      rw [hparse]
      exact List.all_eq_true.2 hdecls.formed
  exact fun part hpart => Subtree.isFormed_of_mem htree hpart

/-! ## Places -/

theorem Ty.index_address_iff {u offset t : Ty} :
    (Ty.address u).index offset = .address t ↔ ∃ extent, u = .array extent t ∧ offset = .int := by
  constructor
  · intro h
    have helement := (getD_firstError h rfl).2
    cases u with
    | array extent base =>
      cases offset with
      | int =>
        cases helement
        exact ⟨extent, rfl, rfl⟩
      | _ => cases helement
    | _ => cases helement
  · rintro ⟨extent, rfl, rfl⟩
    rfl

theorem Parser.arrayType_concat (base : Ty) (extents : List Nat) (extent : Nat) :
    arrayType base (extents ++ [extent]) = arrayType (.array extent base) extents :=
  List.foldr_append

/-- The type at a place is what remains of the type of its symbol behind the offsets. -/
theorem Expr.ty_eq_address_iff {symbols : SymbolTable} {e : Expr} (h : e.isPlace) {t : Ty} :
    e.ty symbols = .address t ↔ ∃ id extents, e.root? = some id ∧
      (symbols.get id).ty = Parser.arrayType t extents ∧ (symbols.get id).ty.isError = false ∧
      e.offsets.length = extents.length ∧ ∀ offset ∈ e.offsets, offset.ty symbols = .int := by
  cases e with
  | address node id =>
    constructor
    · intro hty
      cases hsymbol : (symbols.get id).ty with
      | error message =>
        rw [Expr.ty, hsymbol] at hty
        cases hty
      | _ =>
        rw [Expr.ty, hsymbol] at hty
        refine ⟨id, [], rfl, ?_, ?_, rfl, fun _ hoffset => absurd hoffset List.not_mem_nil⟩
        · exact hsymbol.trans (Ty.address.inj hty)
        · rw [hsymbol]
          rfl
    · rintro ⟨_, extents, hroot, hsymbol, herror, hlength, _⟩
      cases hroot
      cases List.length_eq_zero_iff.1 hlength.symm
      rw [Expr.ty]
      rw [hsymbol] at herror ⊢
      cases t with
      | error => cases herror
      | _ => rfl
  | index node base offset =>
    obtain ⟨hbase, _⟩ := Bool.and_eq_true_iff.1 h
    constructor
    · intro hty
      have hinputs := (Ty.getD_firstError hty rfl).1
      obtain ⟨u, hu⟩ := Expr.ty_of_isPlace hbase (hinputs _ List.mem_cons_self)
      rw [Expr.ty, hu] at hty
      obtain ⟨extent, rfl, hoffset⟩ := Ty.index_address_iff.1 hty
      obtain ⟨id, extents, hroot, hsymbol, herror, hlength, hoffsets⟩ :=
        (Expr.ty_eq_address_iff hbase).1 hu
      refine ⟨id, extents ++ [extent], hroot, ?_, herror, ?_, ?_⟩
      · rw [Parser.arrayType_concat]
        exact hsymbol
      · rw [Expr.offsets, List.length_append, List.length_append, hlength]
        rfl
      · rw [Expr.offsets]
        exact List.forall_mem_append.2 ⟨hoffsets, List.forall_mem_singleton.2 hoffset⟩
    · rintro ⟨id, extents, hroot, hsymbol, herror, hlength, hoffsets⟩
      rw [Expr.offsets, List.length_append] at hlength
      rw [Expr.offsets, List.forall_mem_append, List.forall_mem_singleton] at hoffsets
      rcases List.eq_nil_or_concat extents with rfl | ⟨outer, extent, rfl⟩
      · cases hlength
      · rw [List.concat_eq_append, Parser.arrayType_concat] at hsymbol
        rw [List.concat_eq_append, List.length_append] at hlength
        have hu := (Expr.ty_eq_address_iff hbase).2
          ⟨id, outer, hroot, hsymbol, herror, Nat.succ.inj hlength, hoffsets.1⟩
        rw [Expr.ty, hu]
        exact Ty.index_address_iff.2 ⟨extent, rfl, hoffsets.2⟩
  | _ => cases h

/-! ## Errors of rules -/

namespace Ty

theorem error_of_getD {ts : List Ty} {result : Option Ty} {fault : TypeFault} {message : String}
    (hinputs : ∀ t ∈ ts, t.isError = false)
    (h : (firstError ts).getD (result.getD fault.ty) = .error message) :
    message = fault.message ∨ result = some (.error message) := by
  rw [firstError_eq_none.2 hinputs] at h
  cases result with
  | none => exact .inl (error.inj h).symm
  | some t => exact .inr (congrArg some h)

theorem error_of_index {u offset : Ty} {message : String}
    (hinputs : ∀ t ∈ [address u, offset], t.isError = false)
    (h : (address u).index offset = .error message) :
    message = (TypeFault.index (address u) offset).message := by
  rcases error_of_getD hinputs h with h | h
  · exact h
  · cases u with
    | array => cases offset <;> cases h
    | _ => cases h

theorem error_of_binary {op : Operation} {left right : Ty} {message : String}
    (hinputs : ∀ t ∈ [left, right], t.isError = false)
    (h : binary op left right = .error message) :
    message = (TypeFault.operands op left right).message := by
  rcases error_of_getD hinputs h with h | h
  · exact h
  · cases (combine?_eq h).2.2

theorem error_of_negate {operand : Ty} {message : String} (hinput : operand.isError = false)
    (h : negate operand = .error message) : message = (TypeFault.negation operand).message := by
  cases operand with
  | bool => cases h
  | error => cases hinput
  | _ => exact (error.inj h).symm

theorem error_of_call {callee : Ty} {args : List Ty} {message : String}
    (hinputs : ∀ t ∈ callee :: args, t.isError = false) (h : call callee args = .error message) :
    message = (TypeFault.call callee args).message ∨ callee = func args (.error message) := by
  refine (error_of_getD hinputs h).imp_right fun hresult => ?_
  cases callee with
  | func params result =>
    rw [callResult?, Option.ite_none_right_eq_some] at hresult
    obtain ⟨rfl, hresult⟩ := hresult
    rw [Option.some.inj hresult]
  | _ => cases hresult

theorem call_eq_error {args : List Ty} (h : ∀ t ∈ args, t.isError = false) (message : String) :
    call (func args (.error message)) args = .error message := by
  have hinputs : ∀ t ∈ func args (.error message) :: args, t.isError = false :=
    List.forall_mem_cons.2 ⟨rfl, h⟩
  rw [call, firstError_eq_none.2 hinputs, callResult?, if_pos rfl]
  rfl

/-- There is an error at the elements of the array or at the result of the function. -/
def hidesError : Ty → Bool
  | array _ base => base.innermost.isError
  | func _ result => result.isError
  | _ => false

theorem isError_of_hidesError {t : Ty} (h : t.hidesError) : t.isError = false := by
  cases t with
  | error => cases h
  | _ => rfl

theorem hidesError_arrayType {extents : List Nat} (h : extents ≠ []) (message : String) :
    (Parser.arrayType (.error message) extents).hidesError := by
  have hinnermost (inner : List Nat) :
      (Parser.arrayType (.error message) inner).innermost = .error message := by
    induction inner with
    | nil => rfl
    | cons extent inner ih => exact ih
  cases extents with
  | nil => exact absurd rfl h
  | cons extent inner => exact congrArg isError (hinnermost inner)

end Ty

namespace TypeFault

theorem head?_call (callee : Ty) (args : List Ty) :
    (call callee args).message.toList.head? = some 'C' :=
  head?_toList_foldl (by decide : "Cannot call ".toList.head? = some 'C')
    [callee.text, " using ", Ty.listText args, "."]

theorem head?_operands (op : Operation) (left right : Ty) :
    (operands op left right).message.toList.head? = some 'C' := by
  cases op with
  | add =>
    exact head?_toList_foldl (by decide : "Cannot add ".toList.head? = some 'C')
      [left.text, " with ", right.text, "."]
  | sub =>
    exact head?_toList_foldl (by decide : "Cannot subtract ".toList.head? = some 'C')
      [right.text, " from ", left.text, "."]
  | mul =>
    exact head?_toList_foldl (by decide : "Cannot multiply ".toList.head? = some 'C')
      [left.text, " with ", right.text, "."]
  | div =>
    exact head?_toList_foldl (by decide : "Cannot divide ".toList.head? = some 'C')
      [left.text, " by ", right.text, "."]
  | and =>
    exact head?_toList_foldl (by decide : "Cannot compute ".toList.head? = some 'C')
      [left.text, " and ", right.text, "."]
  | or =>
    exact head?_toList_foldl (by decide : "Cannot compute ".toList.head? = some 'C')
      [left.text, " or ", right.text, "."]
  | compare =>
    exact head?_toList_foldl (by decide : "Cannot compare ".toList.head? = some 'C')
      [left.text, " with ", right.text, "."]

end TypeFault

namespace Subtree

variable {symbols : SymbolTable} {part : Subtree} {message : String} {id : SymbolId}

theorem ruleFault?_head {fault : TypeFault} (h : part.ruleFault? symbols = some fault) :
    fault.message.toList.head? = some 'C' := by
  cases part with
  | tree | decl | block => cases h
  | stmt s =>
    cases s with
    | call node callee args =>
      cases h
      exact TypeFault.head?_call _ _
    | _ => cases h
  | expr e =>
    cases e with
    | literal | address => cases h
    | deref node operand =>
      cases h
      exact head?_toList_foldl (by decide : "Cannot dereference ".toList.head? = some 'C')
        [(operand.ty symbols).text, "."]
    | index node base offset =>
      cases h
      exact head?_toList_foldl (by decide : "Cannot index ".toList.head? = some 'C')
        [(base.ty symbols).text, " with ", (offset.ty symbols).text, "."]
    | binary node op left right =>
      cases h
      exact TypeFault.head?_operands _ _ _
    | not node operand =>
      cases h
      exact head?_toList_foldl (by decide : "Cannot negate ".toList.head? = some 'C')
        [(operand.ty symbols).text, "."]
    | call node callee args =>
      cases h
      exact TypeFault.head?_call _ _

theorem Uncovers.hidesError (h : part.Uncovers symbols message id) :
    (symbols.get id).ty.hidesError := by
  cases h with
  | element _ hty hne =>
    rw [hty]
    exact Ty.hidesError_arrayType hne message
  | result hty | resultDropped hty =>
    rw [hty]
    rfl

theorem Uncovers.contains (h : part.Uncovers symbols message id) :
    (symbols.get id).ty.Contains message := by
  cases h with
  | element _ hty =>
    rw [hty, Ty.contains_arrayType]
    exact .here
  | result hty | resultDropped hty =>
    rw [hty]
    exact .result .here

theorem inputs_call (symbols : SymbolTable) (node : Node) (callee : SymbolId) (args : List Expr) :
    (stmt (.call node callee args)).inputs.map (Input.ty symbols) =
      (symbols.get callee).ty :: Expr.tys symbols args :=
  congrArg (_ :: ·) (Expr.tys_eq args).symm

theorem error_of_call {callee : SymbolId} {args : List Expr}
    (hfault : part.ruleFault? symbols =
      some (.call (symbols.get callee).ty (Expr.tys symbols args)))
    (huncovers : (symbols.get callee).ty = .func (Expr.tys symbols args) (.error message) →
      (∀ t ∈ Expr.tys symbols args, t.isError = false) → part.Uncovers symbols message callee)
    (hinputs : ∀ t ∈ (symbols.get callee).ty :: Expr.tys symbols args, t.isError = false)
    (hty : (symbols.get callee).ty.call (Expr.tys symbols args) = .error message) :
    (∃ fault, part.ruleFault? symbols = some fault ∧ message = fault.message) ∨
      ∃ id, part.Uncovers symbols message id := by
  rcases Ty.error_of_call hinputs hty with hmessage | hcallee
  · exact .inl ⟨_, hfault, hmessage⟩
  · exact .inr ⟨callee, huncovers hcallee (List.forall_mem_cons.1 hinputs).2⟩

theorem error_of_expr {e : Expr} (hformed : (expr e).isFormed) (hname : (expr e).isName = false)
    (hinputs : ∀ t ∈ e.inputs symbols, t.isError = false) (hty : e.ty symbols = .error message) :
    (∃ fault, (expr e).ruleFault? symbols = some fault ∧ message = fault.message) ∨
      ∃ id, (expr e).Uncovers symbols message id := by
  cases e with
  | literal node value => cases value <;> cases hty
  | address => cases hname
  | deref node operand =>
    have hplace : operand.isPlace := hformed
    obtain ⟨t, ht⟩ := Expr.ty_of_isPlace hplace (hinputs _ List.mem_cons_self)
    rw [Expr.ty, ht] at hty
    obtain rfl : t = .error message := hty
    obtain ⟨id, extents, hroot, hsymbol, herror, hlength, hoffsets⟩ :=
      (Expr.ty_eq_address_iff hplace).1 ht
    refine .inr ⟨id, .element hroot hsymbol ?_ hlength hoffsets⟩
    rintro rfl
    rw [hsymbol] at herror
    cases herror
  | index node base offset =>
    have hbase : base.isPlace :=
      (Bool.and_eq_true_iff.1 ((Bool.or_false _).symm.trans hformed)).1
    obtain ⟨u, hu⟩ := Expr.ty_of_isPlace hbase (hinputs _ List.mem_cons_self)
    rw [Expr.inputs, hu] at hinputs
    rw [Expr.ty, hu] at hty
    refine .inl ⟨_, rfl, ?_⟩
    rw [hu]
    exact Ty.error_of_index hinputs hty
  | binary => exact .inl ⟨_, rfl, Ty.error_of_binary hinputs hty⟩
  | not => exact .inl ⟨_, rfl, Ty.error_of_negate (hinputs _ List.mem_cons_self) hty⟩
  | call => exact error_of_call rfl .result hinputs hty

theorem Uncovers.ty {e : Expr} (h : (expr e).Uncovers symbols message id)
    (hformed : (expr e).isFormed) :
    e.ty symbols = .error message ∧ ∀ t ∈ e.inputs symbols, t.isError = false := by
  cases h with
  | element hroot hsymbol hne hlength hoffsets =>
    have herror : (symbols.get id).ty.isError = false := hsymbol ▸ Parser.isError_arrayType hne
    have hplace := (Expr.ty_eq_address_iff hformed).2
      ⟨id, _, hroot, hsymbol, herror, hlength, hoffsets⟩
    rw [Expr.ty, Expr.inputs, hplace]
    exact ⟨rfl, List.forall_mem_singleton.2 rfl⟩
  | result hcallee hargs =>
    rw [Expr.ty, Expr.inputs, hcallee]
    exact ⟨Ty.call_eq_error hargs message, List.forall_mem_cons.2 ⟨rfl, hargs⟩⟩

end Subtree

theorem SymbolTable.get_mem {symbols : SymbolTable} {id : SymbolId}
    (h : (symbols.get id).ty.isError = false) : symbols.get id ∈ symbols := by
  unfold SymbolTable.get at h ⊢
  rw [List.getD_eq_getElem?_getD] at h ⊢
  cases hsymbol : symbols[id]? with
  | none =>
    rw [hsymbol] at h
    cases h
  | some symbol => exact List.mem_of_getElem? hsymbol

/-! ## Reports -/

namespace Parsed

/-- Which reports at expressions repeat an error that is in a declared type. -/
structure RepeatsHidden (parsed : Parsed) (entry : String) : Prop where
  log : (parsed.reports entry).map Prod.snd = (parsed.checked entry).log
  silent : ∀ part d, (part, d) ∈ parsed.reports entry → part.isExpression →
    part.isName = false ∧ ∀ input ∈ part.inputs, (input.ty parsed.symbols).isError = false
  repeated : ∀ part ∈ parsed.parts, part.isExpression → ∀ message,
    ((part, .mistyped part.node.pos message) ∈ parsed.reports entry ∧
      ∃ symbol ∈ parsed.symbols, symbol.ty.Contains message) ↔
    ∃ id, part.Uncovers parsed.symbols message id
  composed : ∀ part d, (part, d) ∈ parsed.reports entry → part.isExpression →
    (∀ message id, ¬ part.Uncovers parsed.symbols message id) →
    ∃ fault, part.ruleFault? parsed.symbols = some fault ∧
      d = .mistyped part.node.pos fault.message
  sound : (∀ symbol ∈ parsed.symbols, symbol.ty.hidesError = false) →
    ∀ part message, (part, .mistyped part.node.pos message) ∈ parsed.reports entry →
      part.isExpression → ∀ symbol ∈ parsed.symbols, ¬ symbol.ty.Contains message

variable {parsed : Parsed} {entry : String} {part : Subtree} {message : String}

section

variable (hids : (parsed.parts.map Subtree.id).Pairwise (· < ·))

include hids

theorem IsOrigin.inputs_sound (h : parsed.IsOrigin entry part message) (hpart : part ∈ parsed.parts) :
    ∀ input ∈ part.inputs, (input.ty parsed.symbols).isError = false := by
  have hnone := Ty.firstError_eq_none.1 ((firstBroken_eq_none hids hpart).1 h.inputs)
  exact fun input hinput => hnone _ (List.mem_map_of_mem hinput)

theorem recorded_call {node : Node} {callee : SymbolId} {args : List Expr}
    (hpart : Subtree.stmt (.call node callee args) ∈ parsed.parts) :
    parsed.recorded entry (.stmt (.call node callee args)) =
      some ((parsed.symbols.get callee).ty.call (Expr.tys parsed.symbols args)) := by
  obtain ⟨promise, hrecorded⟩ := exists_entry hids entry hpart
  exact hrecorded

/-- An error that arises at an expression is worded there or uncovered there. -/
theorem IsOrigin.worded_or_uncovered (h : parsed.IsOrigin entry part message)
    (hpart : part ∈ parsed.parts) (hexpression : part.isExpression) (hformed : part.isFormed) :
    (∃ fault, part.ruleFault? parsed.symbols = some fault ∧ message = fault.message) ∨
      ∃ id, part.Uncovers parsed.symbols message id := by
  have hinputs := Ty.firstError_eq_none.1 ((firstBroken_eq_none hids hpart).1 h.inputs)
  cases part with
  | tree | decl | block => cases hexpression
  | expr e =>
    rw [← Expr.inputs_eq] at hinputs
    have hty := (recorded_expr hids hpart).symm.trans h.recorded
    exact Subtree.error_of_expr hformed h.not_name hinputs (Option.some.inj hty)
  | stmt s =>
    cases s with
    | call node callee args =>
      have hty := (recorded_call hids hpart).symm.trans h.recorded
      rw [Subtree.inputs_call] at hinputs
      exact Subtree.error_of_call rfl .resultDropped hinputs (Option.some.inj hty)
    | _ => cases hexpression

theorem isOrigin_of_uncovers (entry : String) {id : SymbolId} (h : part.Uncovers parsed.symbols message id)
    (hpart : part ∈ parsed.parts) (hformed : part.isFormed) :
    parsed.IsOrigin entry part message := by
  cases part with
  | tree | decl | block => cases h
  | expr e =>
    obtain ⟨hty, hinputs⟩ := h.ty hformed
    rw [Expr.inputs_eq] at hinputs
    refine ⟨(recorded_expr hids hpart).trans (congrArg some hty), ?_, ?_, ?_⟩
    · cases h <;> rfl
    · intro other hother
      cases h <;> cases hother
    · exact (firstBroken_eq_none hids hpart).2 (Ty.firstError_eq_none.2 hinputs)
  | stmt s =>
    cases h with
    | @resultDropped node callee args hcallee hargs =>
      have hty := Ty.call_eq_error hargs message
      rw [← hcallee] at hty
      refine ⟨(recorded_call hids hpart).trans (congrArg some hty), rfl, ?_, ?_⟩
      · intro other hother
        cases hother
      · refine (firstBroken_eq_none hids hpart).2 (Ty.firstError_eq_none.2 ?_)
        rw [Subtree.inputs_call, hcallee]
        exact List.forall_mem_cons.2 ⟨rfl, hargs⟩

end

theorem mem_reports_mistyped (hids : (parsed.parts.map Subtree.id).Pairwise (· < ·))
    (haccounted : parsed.Accounted) :
    (part, .mistyped part.node.pos message) ∈ parsed.reports entry ↔
      part ∈ parsed.parts ∧ parsed.IsOrigin entry part message := by
  rw [mem_reports hids haccounted]
  constructor
  · rintro ⟨hpart, other, horigin, hd⟩
    cases hd
    exact ⟨hpart, horigin⟩
  · rintro ⟨hpart, horigin⟩
    exact ⟨hpart, message, horigin, rfl⟩

end Parsed

section

variable {σ : Type} [TokenStream σ] {stream : σ}

/-- A report repeats an error of a declared type if the node uncovers it, and only then. The wording of
a rule is never that of such an error. -/
theorem parse_repeats_iff (entry : String) (h : (parse stream).tree.isError = false) {part : Subtree}
    (hpart : part ∈ (parse stream).parts) (hexpression : part.isExpression) (message : String) :
    ((part, .mistyped part.node.pos message) ∈ (parse stream).reports entry ∧
      ∃ symbol ∈ (parse stream).symbols, symbol.ty.Contains message) ↔
    ∃ id, part.Uncovers (parse stream).symbols message id := by
  have hids := parse_parts_ids h
  have hformed := parse_formed stream part hpart
  rw [Parsed.mem_reports_mistyped hids (parse_accounts h)]
  constructor
  · rintro ⟨⟨_, horigin⟩, symbol, hsymbol, hcontains⟩
    rcases horigin.worded_or_uncovered hids hpart hexpression hformed with
      ⟨fault, hfault, rfl⟩ | huncovers
    · have hdeclared := parse_errorsDeclared stream symbol hsymbol _ hcontains
      exact absurd (Subtree.ruleFault?_head hfault) hdeclared.head?
    · exact huncovers
  · rintro ⟨id, huncovers⟩
    have horigin := Parsed.isOrigin_of_uncovers hids entry huncovers hpart hformed
    have hsound := Ty.isError_of_hidesError huncovers.hidesError
    exact ⟨⟨hpart, horigin⟩, _, SymbolTable.get_mem hsound, huncovers.contains⟩

end

/-- If a parse is not given up, the only reports at expressions that repeat an error of a declared type
are those where an element of an array or the result of a function is such an error, and each of these
repeats it. So nothing is repeated if no symbol hides an error. All other reports at expressions are
worded by the rule for the node. -/
theorem hidden_errors_reported_again {σ : Type} [TokenStream σ] (stream : σ) (entry : String)
    (h : (parse stream).tree.isError = false) : (parse stream).RepeatsHidden entry := by
  have hids := parse_parts_ids h
  have haccounted := parse_accounts h
  refine ⟨Parsed.map_reports _ entry, ?_, fun _ => parse_repeats_iff entry h, ?_, ?_⟩
  · intro part d hreport _
    obtain ⟨hpart, message, horigin, _⟩ := (Parsed.mem_reports hids haccounted).1 hreport
    exact ⟨horigin.not_name, horigin.inputs_sound hids hpart⟩
  · intro part d hreport hexpression hcovered
    obtain ⟨hpart, message, horigin, rfl⟩ := (Parsed.mem_reports hids haccounted).1 hreport
    have hformed := parse_formed stream part hpart
    rcases horigin.worded_or_uncovered hids hpart hexpression hformed with
      ⟨fault, hfault, rfl⟩ | ⟨id, huncovers⟩
    · exact ⟨fault, hfault, rfl⟩
    · exact absurd huncovers (hcovered message id)
  · intro hhides part message hreport hexpression symbol hsymbol hcontains
    have hpart := ((Parsed.mem_reports_mistyped hids haccounted).1 hreport).1
    obtain ⟨id, huncovers⟩ := (parse_repeats_iff entry h hpart hexpression message).1
      ⟨hreport, symbol, hsymbol, hcontains⟩
    have hsound := Ty.isError_of_hidesError huncovers.hidesError
    exact absurd huncovers.hidesError (by simp [hhides _ (SymbolTable.get_mem hsound)])

/-- A variable, an array and a function have an unknown type, and all are used. One sum has operands
that cannot be added. -/
def brokenDeclarations : String :=
  "var x : foo; array a : foo[3]; func f() : foo \x7b \x7d " ++
    "func main() : void \x7b let x = x + a[0]; let x = 1 + true; ::f(); \x7d"

theorem brokenDeclarations_repeated :
    ((parseText brokenDeclarations).tree.isError = false ∧
      (((parseText brokenDeclarations).reports "main").filter fun report =>
          report.1.isExpression).map Prod.snd =
        [.mistyped ⟨1, 84⟩ "Unknown type: foo.", .mistyped ⟨1, 100⟩ "Cannot add int with bool.",
          .mistyped ⟨1, 108⟩ "Unknown type: foo."]) ∧
      (parseText brokenDeclarations).RepeatsHidden "main" := by
  have hread : (parseText brokenDeclarations).tree.isError = false ∧
      (((parseText brokenDeclarations).reports "main").filter fun report =>
          report.1.isExpression).map Prod.snd =
        [.mistyped ⟨1, 84⟩ "Unknown type: foo.", .mistyped ⟨1, 100⟩ "Cannot add int with bool.",
          .mistyped ⟨1, 108⟩ "Unknown type: foo."] := by
    decide +kernel
  exact ⟨hread, hidden_errors_reported_again (Scanner.ofText brokenDeclarations) "main" hread.1⟩

/-- The unknown result type of a function is reported at its declaration, and again at its call. -/
theorem unknown_result_reported_twice :
    (parseText "func f() : foo \x7b \x7d func main() : void \x7b ::f(); \x7d").tree.isError = false ∧
      ((parseText "func f() : foo \x7b \x7d func main() : void \x7b ::f(); \x7d").symbols.get
          Scope.initial.symbols.length).ty = .func [] (.error "Unknown type: foo.") ∧
      ((parseText "func f() : foo \x7b \x7d func main() : void \x7b ::f(); \x7d").reports
          "main").map (fun report => (report.1.isExpression, report.2)) =
        [(false, .mistyped ⟨1, 1⟩
            "Function f has invalid return type ErrorType(Unknown type: foo.)."),
          (true, .mistyped ⟨1, 41⟩ "Unknown type: foo.")] := by
  decide +kernel

end MipsCompiler
