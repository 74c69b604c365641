import MipsCompiler.Proofs.Accepted
import MipsCompiler.Proofs.Lowering.Layout

set_option autoImplicit false

/-!
# Lowering never fails on accepted programs

Every step of lowering has its effect on the depth of the stack, and is possible whenever the stack
has the words that it takes. A value that is not `void` is left on the stack as one word, and a
statement leaves nothing.
-/

namespace MipsCompiler

/-- A step that takes words off the stack and puts words on it, and does not fail if the stack has
the words to be taken. -/
def Lower.Moves (lower : Lower Code) (taken given : Nat) : Prop :=
  ∀ s, taken ≤ s.depth → ∃ code t, lower s = .ok code t ∧ t.depth = s.depth - taken + given

open Lower (Moves perform performIf)

namespace Lower.Moves

variable {first : Lower Code} {rest : Code → Lower Code} {a b m n : Nat}

theorem pure (code : Code) : Moves (pure code) n n := by
  intro s hs
  exact ⟨code, s, rfl, (Nat.sub_add_cancel hs).symm⟩

theorem bind (h : Moves first a b) (ha : a ≤ m) (h' : ∀ code, Moves (rest code) (m - a + b) n) :
    Moves (first >>= rest) m n := by
  intro s hs
  obtain ⟨code, t, hfirst, ht⟩ := h s (Nat.le_trans ha hs)
  obtain ⟨code', u, hrest, hu⟩ := h' code t (by omega)
  exact ⟨code', u, bind_ok.2 ⟨code, t, hfirst, hrest⟩, by omega⟩

theorem after {α : Type} {look : Lower α} {rest : α → Lower Code} {P : α → Prop}
    (h : ∀ s, ∃ x t, look s = .ok x t ∧ t.depth = s.depth ∧ P x)
    (h' : ∀ x, P x → Moves (rest x) m n) : Moves (look >>= rest) m n := by
  intro s hs
  obtain ⟨x, t, hlook, ht, hx⟩ := h s
  obtain ⟨code, u, hrest, hu⟩ := h' x hx t (ht ▸ hs)
  exact ⟨code, u, bind_ok.2 ⟨x, t, hlook, hrest⟩, ht ▸ hu⟩

theorem one {op : StackOp} (h : op.fits) : Moves (Lower.perform op) op.taken op.given := by
  intro s hs
  refine ⟨op.lines, { s with depth := s.depth - op.taken + op.given }, ?_, rfl⟩
  refine perform_ok.2 ⟨_, ?_, rfl, rfl⟩
  simp [StackOp.depthAfter, h, hs]

theorem perform {op : StackOp} (h : op.fits) (htaken : op.taken ≤ m)
    (h' : ∀ code, Moves (rest code) (m - op.taken + op.given) n) :
    Moves (Lower.perform op >>= rest) m n :=
  (one h).bind htaken h'

theorem oneIf (condition : Bool) {op : StackOp} (h : op.fits) :
    Moves (performIf condition op) (if condition then op.taken else 0)
      (if condition then op.given else 0) := by
  cases condition with
  | true => exact one h
  | false => exact pure []

end Lower.Moves

theorem Literal.lower_moves (value : Literal) : Moves value.lower 0 1 := by
  cases value with
  | int | float | bool => exact .perform rfl (by decide) fun _ => .pure _

namespace Body

theorem requestLabel_keeps (body : Body) (suffix : String) (s : LowerState) :
    ∃ label t, body.requestLabel suffix s = .ok label t ∧ t.depth = s.depth ∧ True :=
  ⟨_, _, requestLabel_ok.2 ⟨rfl, rfl⟩, rfl, trivial⟩

theorem combineWords_moves (op : WordOp) : Moves (combineWords op) 2 1 := by
  refine .perform rfl (by decide) fun right => ?_
  refine .perform rfl (by decide) fun left => ?_
  exact .perform rfl (by decide) fun push => .pure _

theorem combineSingles_moves (op : SingleOp) : Moves (combineSingles op) 2 1 := by
  refine .perform rfl (by decide) fun right => ?_
  refine .perform rfl (by decide) fun left => ?_
  exact .perform rfl (by decide) fun push => .pure _

theorem compareSingles_moves (body : Body) (comparison : Comparison) :
    Moves (body.compareSingles comparison) 2 1 := by
  refine .perform rfl (by decide) fun right => ?_
  refine .perform rfl (by decide) fun left => ?_
  refine .after (body.requestLabel_keeps _) fun done _ => ?_
  exact .perform rfl (by decide) fun push => .pure _

theorem combine_moves (body : Body) (pos : Position) {op : BinaryOp} {left right t : Ty}
    (h : Ty.combine? op.operation left right = some t) : Moves (body.combine pos op left) 2 1 := by
  unfold combine
  split
  · next hfloat =>
    obtain rfl : left = .float := by
      cases left with
      | float => rfl
      | _ => nomatch hfloat
    cases op with
    | add | sub | mul | div => exact combineSingles_moves _
    | compare comparison => exact compareSingles_moves body comparison
    | and | or => nomatch h
  · exact combineWords_moves op.wordOp

theorem load_moves (pos : Position) {ty : Ty} (h : ty.isScalar) : Moves (load pos ty) 1 1 := by
  refine .perform rfl (by decide) fun pop => ?_
  cases ty with
  | int | float | bool => exact .perform rfl (by decide) fun push => .pure _
  | _ => nomatch h

theorem select_moves (size : Nat) : Moves (select size) 2 1 := by
  refine .perform rfl (by decide) fun offset => ?_
  refine .perform rfl (by decide) fun base => ?_
  exact .perform rfl (by decide) fun push => .pure _

theorem invert_moves : Moves invert 1 1 := by
  refine .perform rfl (by decide) fun pop => ?_
  exact .perform rfl (by decide) fun push => .pure _

theorem pushAddress_moves {body : Body} {id : SymbolId} (pos : Position)
    (h : (body.storage.locate? id).isSome) : Moves (body.pushAddress pos id) 0 1 := by
  obtain ⟨location, hlocation⟩ := Option.isSome_iff_exists.1 h
  simp only [pushAddress, Storage.addressInstr?, hlocation, Option.map_some]
  exact .perform rfl (by decide) fun push => .pure _

theorem jumpTo_moves (body : Body) (callee : SymbolId) {words : Nat}
    (h : words * wordBytes < Word.count) :
    Moves (body.jumpTo callee words) words
      (if (body.env.symbols.get callee).ty.yieldsWord then 1 else 0) := by
  have hfits : (StackOp.drop words).fits := by
    refine decide_eq_true (Nat.lt_of_le_of_lt ?_ h)
    exact Nat.mul_le_mul_right wordBytes (Nat.mod_le words Word.count)
  have hpush : Moves (performIf (body.env.symbols.get callee).ty.yieldsWord (.pushWord .v0)) _ _ :=
    .oneIf _ rfl
  refine .perform hfits (Nat.le_refl _) fun release => ?_
  have hnone : words - (StackOp.drop words).taken + (StackOp.drop words).given = 0 :=
    Nat.sub_self words
  rw [hnone]
  refine hpush.bind (by split <;> decide) fun push => ?_
  split
  · exact .pure _
  · exact .pure _

theorem store_moves (ty : Ty) : Moves (store ty) 2 0 := by
  unfold store
  split
  · refine .perform rfl (by decide) fun value => ?_
    exact .perform rfl (by decide) fun place => .pure _
  · refine .perform rfl (by decide) fun value => ?_
    exact .perform rfl (by decide) fun place => .pure _

theorem skipTo_moves (label : String) : Moves (skipTo label) 1 0 :=
  .perform rfl (by decide) fun pop => .pure _

theorem leave_moves (body : Body) (ty : Ty) :
    Moves (body.leave ty) (if ty.isVoid then 0 else 1) 0 := by
  unfold leave
  split
  · exact .pure _
  · exact .one rfl

end Body

/-- An expression leaves one word on the stack, or none if it is `void`. -/
def Expr.Grows (body : Body) (e : Expr) : Prop :=
  Moves (e.lower body) 0 (if (e.ty body.env.symbols).isVoid then 0 else 1)

theorem Expr.grows_iff {body : Body} {e : Expr} (hty : (e.ty body.env.symbols).isVoid = false) :
    e.Grows body ↔ Moves (e.lower body) 0 1 := by
  rw [Expr.Grows, hty]
  rfl

/-- What lowering relies on in an expression: its type is entered, and no call drops more bytes than
a word can count. -/
def Expr.Ready (body : Body) (e : Expr) : Prop :=
  body.env.types.get? e.node.id = some (e.ty body.env.symbols) ∧
    e.argCount * wordBytes < Word.count

theorem Environment.typeOf_keeps {env : Environment} {node : Node} {ty : Ty}
    (h : env.types.get? node.id = some ty) (s : LowerState) :
    ∃ x t, env.typeOf node s = .ok x t ∧ t.depth = s.depth ∧ x = ty :=
  ⟨ty, s, Environment.typeOf_ok.2 ⟨h, rfl⟩, rfl, rfl⟩

namespace Expr

variable {body : Body} {node : Node} {ty : Ty}

theorem index_moves {base offset : Expr} (htype : body.env.types.get? node.id = some ty.address)
    (hsize : ty.size?.isSome) (hbase : Moves (base.lower body) 0 1)
    (hoffset : Moves (offset.lower body) 0 1) :
    Moves ((Expr.index node base offset).lower body) 0 1 := by
  obtain ⟨bytes, hbytes⟩ := Option.isSome_iff_exists.1 hsize
  have hlook (s : LowerState) :
      ∃ x t, Body.elementSize node.pos ty.address s = .ok x t ∧ t.depth = s.depth ∧ True :=
    ⟨bytes, s, Lower.ofExcept_ok.2 ⟨sizeAt_ok.2 hbytes, rfl⟩, rfl, trivial⟩
  refine .after (Environment.typeOf_keeps htype) fun _ hx => ?_
  subst hx
  refine .after hlook fun size _ => ?_
  refine hbase.bind (by decide) fun baseCode => ?_
  refine hoffset.bind (by decide) fun offsetCode => ?_
  exact (Body.select_moves size).bind (by decide) fun select => .pure _

theorem deref_moves {place : Expr} (htype : body.env.types.get? node.id = some ty)
    (hscalar : ty.isScalar) (hplace : Moves (place.lower body) 0 1) :
    Moves ((Expr.deref node place).lower body) 0 1 := by
  refine hplace.bind (by decide) fun placeCode => ?_
  refine .after (Environment.typeOf_keeps htype) fun _ hx => ?_
  subst hx
  exact (Body.load_moves node.pos hscalar).bind (by decide) fun load => .pure _

theorem binary_moves {op : BinaryOp} {left right : Expr} {leftTy rightTy : Ty}
    (htype : body.env.types.get? left.node.id = some leftTy)
    (hcombine : Ty.combine? op.operation leftTy rightTy = some ty)
    (hleft : Moves (left.lower body) 0 1) (hright : Moves (right.lower body) 0 1) :
    Moves ((Expr.binary node op left right).lower body) 0 1 := by
  refine hleft.bind (by decide) fun leftCode => ?_
  refine hright.bind (by decide) fun rightCode => ?_
  refine .after (Environment.typeOf_keeps htype) fun _ hx => ?_
  subst hx
  exact (body.combine_moves node.pos hcombine).bind (by decide) fun combine => .pure _

theorem not_moves {operand : Expr} (h : Moves (operand.lower body) 0 1) :
    Moves ((Expr.not node operand).lower body) 0 1 := by
  refine h.bind (by decide) fun code => ?_
  exact Body.invert_moves.bind (by decide) fun invert => .pure _

theorem call_moves {callee : SymbolId} {args : List Expr}
    (hargs : ∀ s, ∃ code t, Expr.lowerAll body args s = .ok (code, args.length) t ∧
      t.depth = s.depth + args.length)
    (hcount : args.length * wordBytes < Word.count) :
    Moves ((Expr.call node callee args).lower body) 0
      (if (body.env.symbols.get callee).ty.yieldsWord then 1 else 0) := by
  intro s _
  obtain ⟨code, t, hcode, ht⟩ := hargs s
  obtain ⟨jump, u, hjump, hu⟩ := body.jumpTo_moves callee hcount t (by omega)
  refine ⟨code ++ jump, u, ?_, by omega⟩
  simp only [Expr.lower, bind_ok, pure_ok]
  exact ⟨(code, args.length), t, hcode, jump, u, hjump, rfl, rfl⟩

theorem lowerAll_cons {e : Expr} {es : List Expr}
    (htype : body.env.types.get? e.node.id = some ty) (hscalar : ty.isScalar)
    (hfirst : Moves (e.lower body) 0 1)
    (hrest : ∀ s, ∃ code t, Expr.lowerAll body es s = .ok (code, es.length) t ∧
      t.depth = s.depth + es.length) (s : LowerState) :
    ∃ code t, Expr.lowerAll body (e :: es) s = .ok (code, (e :: es).length) t ∧
      t.depth = s.depth + (e :: es).length := by
  obtain ⟨code, t, hcode, ht⟩ := hfirst s (Nat.zero_le _)
  obtain ⟨rest, u, hrun, hu⟩ := hrest t
  refine ⟨code ++ rest, u, ?_, ?_⟩
  · simp only [Expr.lowerAll, bind_ok, pure_ok, Environment.typeOf_ok, Lower.ofExcept_ok, sizeAt_ok]
    refine ⟨code, t, hcode, ty, t, ⟨htype, rfl⟩, wordBytes, t, ⟨Ty.size?_of_isScalar hscalar, rfl⟩,
      (rest, es.length), u, hrun, ?_, rfl⟩
    rw [List.length_cons, Nat.add_comm]
    rfl
  · rw [hu, ht, List.length_cons]
    omega

end Expr

namespace Judgement

/-- Everything inside can be lowered; arguments fill one word each. -/
def Lowers (body : Body) : Judgement → Prop
  | .values es _ => (∀ e ∈ Expr.subexprsAll es, e.Grows body) ∧
    ∀ s, ∃ code t, Expr.lowerAll body es s = .ok (code, es.length) t ∧
      t.depth = s.depth + es.length
  | judgement => ∀ e ∈ judgement.subexprs, e.Grows body

end Judgement

namespace WellTyped

variable {body : Body} {reach : List SymbolId} {e : Expr} {ty : Ty}

theorem place_grows_iff (h : WellTyped body.env.symbols reach (.place e ty)) :
    e.Grows body ↔ Moves (e.lower body) 0 1 := by
  refine Expr.grows_iff ?_
  rw [h.agrees.1]
  rfl

theorem value_grows_iff (h : WellTyped body.env.symbols reach (.value e ty)) (hty : ty.isScalar) :
    e.Grows body ↔ Moves (e.lower body) 0 1 := by
  refine Expr.grows_iff ?_
  rw [h.agrees.1]
  exact Ty.isVoid_of_isScalar hty

theorem place_moves (h : WellTyped body.env.symbols reach (.place e ty))
    (hlowers : ∀ e' ∈ e.subexprs, e'.Grows body) : Moves (e.lower body) 0 1 :=
  h.place_grows_iff.1 (hlowers e e.self_mem_subexprs)

theorem value_moves (h : WellTyped body.env.symbols reach (.value e ty)) (hty : ty.isScalar)
    (hlowers : ∀ e' ∈ e.subexprs, e'.Grows body) : Moves (e.lower body) 0 1 :=
  (h.value_grows_iff hty).1 (hlowers e e.self_mem_subexprs)

theorem place_type (h : WellTyped body.env.symbols reach (.place e ty)) (hready : e.Ready body) :
    body.env.types.get? e.node.id = some ty.address := by
  rw [hready.1, h.agrees.1]

theorem value_type (h : WellTyped body.env.symbols reach (.value e ty)) (hready : e.Ready body) :
    body.env.types.get? e.node.id = some ty := by
  rw [hready.1, h.agrees.1]

theorem words_of_callee {node : Node} {callee : SymbolId} {args : List Expr}
    (h : WellTyped body.env.symbols reach (.value (.call node callee args) ty)) :
    (if ((Expr.call node callee args).ty body.env.symbols).isVoid then 0 else 1) =
      if (body.env.symbols.get callee).ty.yieldsWord then 1 else 0 := by
  rw [h.agrees.1]
  cases h with
  | call _ hcallee _ _ =>
    cases hvoid : ty.isVoid <;> simp [hcallee, Ty.yieldsWord, Ty.result?, hvoid]

theorem lowers {judgement : Judgement} (h : WellTyped body.env.symbols reach judgement)
    (hstorage : ∀ id ∈ reach, (body.env.symbols.get id).ty.size?.isSome →
      (body.storage.locate? id).isSome)
    (hready : ∀ e ∈ judgement.subexprs, e.Ready body) : judgement.Lowers body := by
  induction h with
  | @name node id hid hsize =>
    refine List.forall_mem_singleton.2 ((name hid hsize).place_grows_iff.2 ?_)
    exact Body.pushAddress_moves node.pos (hstorage id hid hsize)
  | @element node base offset extent ty hbase hoffset ihbase ihoffset =>
    obtain ⟨hhere, hparts⟩ := List.forall_mem_cons.1 hready
    obtain ⟨hrbase, hroffset⟩ := List.forall_mem_append.1 hparts
    have hlbase := ihbase hrbase
    have hloffset := ihoffset hroffset
    have hself : WellTyped body.env.symbols reach (.place (.index node base offset) ty) :=
      .element hbase hoffset
    refine List.forall_mem_cons.2 ⟨hself.place_grows_iff.2 ?_,
      List.forall_mem_append.2 ⟨hlbase, hloffset⟩⟩
    exact Expr.index_moves (hself.place_type hhere) hself.agrees.2 (hbase.place_moves hlbase)
      (hoffset.value_moves rfl hloffset)
  | @literal node value =>
    refine List.forall_mem_singleton.2 ((Expr.grows_iff ?_).2 value.lower_moves)
    cases value <;> rfl
  | @load node place ty hplace hscalar ih =>
    obtain ⟨hhere, hrplace⟩ := List.forall_mem_cons.1 hready
    have hlplace := ih hrplace
    have hself : WellTyped body.env.symbols reach (.value (.deref node place) ty) :=
      .load hplace hscalar
    refine List.forall_mem_cons.2 ⟨(hself.value_grows_iff hscalar).2 ?_, hlplace⟩
    exact Expr.deref_moves (hself.value_type hhere) hscalar (hplace.place_moves hlplace)
  | @binary node op left right leftTy rightTy ty hleft hright hcombine ihleft ihright =>
    obtain ⟨hrleft, hrright⟩ := List.forall_mem_append.1 (List.forall_mem_cons.1 hready).2
    have hlleft := ihleft hrleft
    have hlright := ihright hrright
    obtain ⟨hsleft, hsright, hscalar⟩ := Ty.combine?_eq hcombine
    have hself : WellTyped body.env.symbols reach (.value (.binary node op left right) ty) :=
      .binary hleft hright hcombine
    refine List.forall_mem_cons.2 ⟨(hself.value_grows_iff hscalar).2 ?_,
      List.forall_mem_append.2 ⟨hlleft, hlright⟩⟩
    exact Expr.binary_moves (hleft.value_type (hrleft left left.self_mem_subexprs)) hcombine
      (hleft.value_moves hsleft hlleft) (hright.value_moves hsright hlright)
  | @negation node operand hoperand ih =>
    have hloperand := ih (List.forall_mem_cons.1 hready).2
    have hself : WellTyped body.env.symbols reach (.value (.not node operand) .bool) :=
      .negation hoperand
    refine List.forall_mem_cons.2 ⟨(hself.value_grows_iff rfl).2 ?_, hloperand⟩
    exact Expr.not_moves (hoperand.value_moves rfl hloperand)
  | @call node callee args params result hid hcallee hresult hargs ih =>
    obtain ⟨⟨_, hcount⟩, hrargs⟩ := List.forall_mem_cons.1 hready
    obtain ⟨hlargs, hrun⟩ := ih hrargs
    have hself : WellTyped body.env.symbols reach (.value (.call node callee args) result) :=
      .call hid hcallee hresult hargs
    refine List.forall_mem_cons.2 ⟨?_, hlargs⟩
    rw [Expr.Grows, hself.words_of_callee]
    exact Expr.call_moves hrun hcount
  | nil =>
    exact ⟨fun _ h => absurd h List.not_mem_nil, fun s => ⟨[], s, rfl, rfl⟩⟩
  | @cons e es ty tys he hscalar hes ih ihs =>
    obtain ⟨hrfirst, hrrest⟩ := List.forall_mem_append.1 hready
    have hlfirst := ih hrfirst
    obtain ⟨hlrest, hrun⟩ := ihs hrrest
    refine ⟨List.forall_mem_append.2 ⟨hlfirst, hlrest⟩, ?_⟩
    exact Expr.lowerAll_cons (he.value_type (hrfirst e e.self_mem_subexprs)) hscalar
      (he.value_moves hscalar hlfirst) hrun

end WellTyped

theorem Lower.Moves.balanced {lower : Lower Code} (pos : Position) (h : Moves lower 0 0) :
    Moves (Lower.balanced pos lower) 0 0 := by
  intro s hs
  obtain ⟨code, t, hrun, ht⟩ := h s hs
  exact ⟨code, t, balanced_ok.2 ⟨hrun, ht⟩, ht⟩

namespace Stmt

variable {body : Body} {node : Node}

theorem call_moves {callee : SymbolId} {args : List Expr}
    (h : Moves ((Expr.call node callee args).lower body) 0
      (if (body.env.symbols.get callee).ty.yieldsWord then 1 else 0)) :
    Moves ((Stmt.call node callee args).lower body) 0 0 := by
  refine Lower.Moves.balanced _ fun s hs => ?_
  obtain ⟨_, t, hrun, ht⟩ := h s hs
  simp only [Expr.lower, bind_ok, pure_ok, Prod.exists] at hrun
  obtain ⟨code, words, u, hcode, jump, _, hjump, _, rfl⟩ := hrun
  have hdiscard : Moves (performIf (body.env.symbols.get callee).ty.yieldsWord (.drop 1))
    (if (body.env.symbols.get callee).ty.yieldsWord then 1 else 0) _ := .oneIf _ rfl
  obtain ⟨discard, v, hdrop, hv⟩ := hdiscard t (by omega)
  refine ⟨code ++ jump ++ discard, v, ?_, ?_⟩
  · simp only [Body.callAsStatement, bind_ok, pure_ok, Prod.exists]
    exact ⟨code, words, u, hcode, jump, t, hjump, discard, v, hdrop, rfl, rfl⟩
  · rw [hv, ht]
    split <;> rfl

theorem assign_moves {target source : Expr} {ty : Ty}
    (htype : body.env.types.get? source.node.id = some ty) (htarget : Moves (target.lower body) 0 1)
    (hsource : Moves (source.lower body) 0 1) :
    Moves ((Stmt.assign node target source).lower body) 0 0 := by
  refine Lower.Moves.balanced _ (htarget.bind (by decide) fun place => ?_)
  refine hsource.bind (by decide) fun value => ?_
  refine .after (Environment.typeOf_keeps htype) fun ty _ => ?_
  exact (Body.store_moves ty).bind (by decide) fun store => .pure _

theorem branch_moves {condition : Expr} {thenBlock elseBlock : Block}
    (hcondition : Moves (condition.lower body) 0 1) (hthen : Moves (thenBlock.lower body) 0 0)
    (helse : Moves (elseBlock.lower body) 0 0) :
    Moves ((Stmt.branch node condition thenBlock elseBlock).lower body) 0 0 := by
  refine Lower.Moves.balanced _ (.after (body.requestLabel_keeps _) fun otherwise _ => ?_)
  refine .after (body.requestLabel_keeps _) fun finish _ => ?_
  refine hcondition.bind (by decide) fun test => ?_
  refine (Body.skipTo_moves otherwise).bind (by decide) fun skip => ?_
  refine hthen.bind (by decide) fun taken => ?_
  exact helse.bind (by decide) fun other => .pure _

theorem loop_moves {condition : Expr} {inner : Block}
    (hcondition : Moves (condition.lower body) 0 1) (hinner : Moves (inner.lower body) 0 0) :
    Moves ((Stmt.loop node condition inner).lower body) 0 0 := by
  refine Lower.Moves.balanced _ (.after (body.requestLabel_keeps _) fun head _ => ?_)
  refine .after (body.requestLabel_keeps _) fun finish _ => ?_
  refine hcondition.bind (by decide) fun test => ?_
  refine (Body.skipTo_moves finish).bind (by decide) fun skip => ?_
  exact hinner.bind (by decide) fun repeated => .pure _

theorem ret_moves {value : Expr}
    (htype : body.env.types.get? value.node.id = some (value.ty body.env.symbols))
    (hvalue : value.Grows body) : Moves ((Stmt.ret node value).lower body) 0 0 := by
  refine Lower.Moves.balanced _ fun s hs => ?_
  obtain ⟨code, t, hcode, ht⟩ := hvalue s hs
  obtain ⟨leave, u, hleave, hu⟩ := body.leave_moves (value.ty body.env.symbols) t (by omega)
  refine ⟨code ++ leave, u, ?_, by omega⟩
  simp only [bind_ok, pure_ok, Environment.typeOf_ok]
  exact ⟨code, t, hcode, _, t, ⟨htype, rfl⟩, leave, u, hleave, rfl, rfl⟩

end Stmt

/-- All statements inside leave the stack as they find it. -/
def StmtPhrase.Lowers (body : Body) : StmtPhrase → Prop
  | .stmt s => ∀ s' ∈ s.substmts, Moves (s'.lower body) 0 0
  | .stmts ss => (∀ s' ∈ Stmt.substmtsAll ss, Moves (s'.lower body) 0 0) ∧
    Moves (Stmt.lowerAll body ss) 0 0
  | .block b => (∀ s' ∈ b.substmts, Moves (s'.lower body) 0 0) ∧ Moves (b.lower body) 0 0

namespace StmtTyped

variable {body : Body} {reach : List SymbolId} {result : Ty}

theorem lowers {phrase : StmtPhrase} (h : StmtTyped body.env.symbols reach result phrase)
    (hstorage : ∀ id ∈ reach, (body.env.symbols.get id).ty.size?.isSome →
      (body.storage.locate? id).isSome)
    (hready : ∀ e ∈ phrase.exprs, e.Ready body) :
    (∀ e ∈ phrase.exprs, e.Grows body) ∧ phrase.Lowers body := by
  induction h with
  | var =>
    refine ⟨fun _ h => absurd h List.not_mem_nil, List.forall_mem_singleton.2 ?_⟩
    exact (Lower.Moves.pure []).balanced _
  | @call node callee args ty hcall =>
    have hlcall := hcall.lowers hstorage hready
    have hgrows := hlcall _ (Expr.self_mem_subexprs _)
    rw [Expr.Grows, hcall.words_of_callee] at hgrows
    exact ⟨hlcall, List.forall_mem_singleton.2 (Stmt.call_moves hgrows)⟩
  | @assign node target source ty htarget hsource hscalar =>
    obtain ⟨hrtarget, hrsource⟩ := List.forall_mem_append.1 hready
    have hltarget := htarget.lowers hstorage hrtarget
    have hlsource := hsource.lowers hstorage hrsource
    refine ⟨List.forall_mem_append.2 ⟨hltarget, hlsource⟩, List.forall_mem_singleton.2 ?_⟩
    exact Stmt.assign_moves (hrsource source source.self_mem_subexprs).1
      (htarget.place_moves hltarget) (hsource.value_moves hscalar hlsource)
  | @branch node condition thenBlock elseBlock hcondition _ _ ihthen ihelse =>
    obtain ⟨hrparts, hrelse⟩ := List.forall_mem_append.1 hready
    obtain ⟨hrcondition, hrthen⟩ := List.forall_mem_append.1 hrparts
    have hlcondition := hcondition.lowers hstorage hrcondition
    obtain ⟨hgthen, hsthen, hmthen⟩ := ihthen hrthen
    obtain ⟨hgelse, hselse, hmelse⟩ := ihelse hrelse
    refine ⟨List.forall_mem_append.2 ⟨List.forall_mem_append.2 ⟨hlcondition, hgthen⟩, hgelse⟩,
      List.forall_mem_cons.2 ⟨?_, List.forall_mem_append.2 ⟨hsthen, hselse⟩⟩⟩
    exact Stmt.branch_moves (hcondition.value_moves rfl hlcondition) hmthen hmelse
  | @loop node condition inner hcondition _ ih =>
    obtain ⟨hrcondition, hrinner⟩ := List.forall_mem_append.1 hready
    have hlcondition := hcondition.lowers hstorage hrcondition
    obtain ⟨hginner, hsinner, hminner⟩ := ih hrinner
    refine ⟨List.forall_mem_append.2 ⟨hlcondition, hginner⟩, List.forall_mem_cons.2 ⟨?_, hsinner⟩⟩
    exact Stmt.loop_moves (hcondition.value_moves rfl hlcondition) hminner
  | @ret node value hvalue =>
    have hlvalue := hvalue.lowers hstorage hready
    refine ⟨hlvalue, List.forall_mem_singleton.2 ?_⟩
    exact Stmt.ret_moves (hready value value.self_mem_subexprs).1
      (hlvalue value value.self_mem_subexprs)
  | block _ ih => exact ih hready
  | nil =>
    exact ⟨fun _ h => absurd h List.not_mem_nil, fun _ h => absurd h List.not_mem_nil, .pure []⟩
  | @cons s ss _ _ ih ihs =>
    obtain ⟨hrfirst, hrrest⟩ := List.forall_mem_append.1 hready
    obtain ⟨hgfirst, hsfirst⟩ := ih hrfirst
    obtain ⟨hgrest, hsrest, hmrest⟩ := ihs hrrest
    refine ⟨List.forall_mem_append.2 ⟨hgfirst, hgrest⟩,
      List.forall_mem_append.2 ⟨hsfirst, hsrest⟩, ?_⟩
    refine (hsfirst s s.self_mem_substmts).bind (by decide) fun code => ?_
    exact hmrest.bind (by decide) fun rest => .pure _

end StmtTyped

namespace StackFrame

variable {symbols : SymbolTable}

theorem parameterSlots_total (pos : Position) {ids : List SymbolId}
    (h : ∀ id ∈ ids, (symbols.get id).ty.isScalar) (offset : Nat) :
    ∃ slots, parameterSlots symbols pos offset ids = .ok slots ∧ slots.map Prod.fst = ids := by
  induction ids generalizing offset with
  | nil => exact ⟨[], rfl, rfl⟩
  | cons id ids ih =>
    obtain ⟨hid, hids⟩ := List.forall_mem_cons.1 h
    obtain ⟨slots, hslots, hkeys⟩ := ih hids (offset + wordBytes)
    refine ⟨(id, (offset : Int)) :: slots, ?_, congrArg (id :: ·) hkeys⟩
    rw [parameterSlots, sizeAt_ok.2 (Ty.size?_of_isScalar hid)]
    change (parameterSlots symbols pos (offset + wordBytes) ids >>= _) = _
    rw [hslots]
    rfl

theorem localSlots_total {decls : List VarDecl}
    (h : ∀ id ∈ decls.map VarDecl.symbol, (symbols.get id).ty.isScalar) (size : Nat) :
    ∃ slots total, localSlots symbols size decls = .ok (slots, total) ∧
      slots.map Prod.fst = decls.map VarDecl.symbol := by
  induction decls generalizing size with
  | nil => exact ⟨[], size, rfl, rfl⟩
  | cons decl decls ih =>
    obtain ⟨hdecl, hdecls⟩ := List.forall_mem_cons.1 h
    obtain ⟨slots, total, hslots, hkeys⟩ := ih hdecls (size + wordBytes)
    refine ⟨(decl.symbol, -((savedSize + size + wordBytes : Nat) : Int)) :: slots, total, ?_,
      congrArg (decl.symbol :: ·) hkeys⟩
    rw [localSlots, sizeAt_ok.2 (Ty.size?_of_isScalar hdecl)]
    change (localSlots symbols (size + wordBytes) decls >>= _) = _
    rw [hslots]
    rfl

theorem isSome_lookup {slots : List (SymbolId × Int)} {id : SymbolId}
    (h : id ∈ slots.map Prod.fst) : (slots.lookup id).isSome := by
  obtain ⟨slot, hslot, rfl⟩ := List.mem_map.1 h
  exact List.lookup_isSome_iff.2 ⟨slot, hslot, beq_self_eq_true _⟩

theorem ofFunction_total {definition : FuncDef}
    (hparams : ∀ id ∈ definition.params, (symbols.get id).ty.isScalar)
    (hlocals : ∀ id ∈ definition.body.locals.map VarDecl.symbol, (symbols.get id).ty.isScalar) :
    ∃ frame, ofFunction symbols definition = .ok frame ∧
      ∀ id ∈ definition.params ++ definition.body.locals.map VarDecl.symbol,
        (frame.offset? id).isSome := by
  obtain ⟨params, hp, hpkeys⟩ := parameterSlots_total definition.node.pos
    (fun id hid => hparams id (List.mem_reverse.1 hid)) 0
  obtain ⟨locals, total, hl, hlkeys⟩ := localSlots_total hlocals 0
  refine ⟨⟨params, locals, total⟩, ?_, ?_⟩
  · rw [ofFunction, hp]
    change (localSlots symbols 0 definition.body.locals >>= _) = _
    rw [hl]
    rfl
  · intro id hid
    rw [offset?, Option.isSome_or, Bool.or_eq_true_iff]
    rcases List.mem_append.1 hid with hid | hid
    · exact .inl (isSome_lookup (hpkeys ▸ List.mem_reverse.2 hid))
    · exact .inr (isSome_lookup (hlkeys ▸ hid))

end StackFrame

/-- Everything with a size among `reach` has static storage. -/
def Storage.Covers (storage : Storage) (symbols : SymbolTable) (reach : List SymbolId) : Prop :=
  ∀ id ∈ reach, (symbols.get id).ty.size?.isSome → (storage.globals.lookup id).isSome

theorem Storage.isSome_locate? (storage : Storage) (id : SymbolId) :
    (storage.locate? id).isSome =
      ((storage.frames.findSome? fun frame => frame.offset? id).isSome ||
        (storage.globals.lookup id).isSome) := by
  unfold locate?
  cases storage.frames.findSome? fun frame => frame.offset? id <;> simp

theorem Storage.Covers.enter {storage : Storage} {symbols : SymbolTable} {reach : List SymbolId}
    (h : storage.Covers symbols reach) {frame : StackFrame} {ids : List SymbolId}
    (hframe : ∀ id ∈ ids, (frame.offset? id).isSome) :
    ∀ id ∈ ids ++ reach, (symbols.get id).ty.size?.isSome →
      ((storage.enter frame).locate? id).isSome := by
  intro id hid hsize
  rw [Storage.isSome_locate?, Bool.or_eq_true_iff]
  rcases List.mem_append.1 hid with hid | hid
  · obtain ⟨offset, hoffset⟩ := Option.isSome_iff_exists.1 (hframe id hid)
    refine .inl ?_
    simp [Storage.enter, hoffset]
  · exact .inr (h id hid hsize)

def FuncDef.argCounts (definition : FuncDef) : List Nat :=
  definition.body.exprs.map Expr.argCount

def Tree.argCounts (tree : Tree) : List Nat :=
  tree.decls.flatMap fun
    | .func definition => definition.argCounts
    | _ => []

section

variable {env : Environment} {storage : Storage} {reach : List SymbolId}

theorem FuncDef.Typed.lowers {definition : FuncDef} {result : Ty}
    (h : definition.Typed env.symbols env.entry reach result)
    (hstorage : storage.Covers env.symbols reach)
    (htypes : ∀ e ∈ definition.body.exprs, env.types.get? e.node.id = some (e.ty env.symbols))
    (hcounts : ∀ n ∈ definition.argCounts, n * wordBytes < Word.count) {frame : StackFrame}
    (hframe : StackFrame.ofFunction env.symbols definition = .ok frame) (name finish : String) :
    (∀ e ∈ definition.body.exprs, e.Grows ⟨env, storage.enter frame, name, finish⟩) ∧
      (∀ s ∈ definition.body.substmts,
        Moves (s.lower ⟨env, storage.enter frame, name, finish⟩) 0 0) ∧
      Moves (definition.body.lower ⟨env, storage.enter frame, name, finish⟩) 0 0 := by
  obtain ⟨frame', hframe', hslots⟩ := StackFrame.ofFunction_total h.params h.locals
  obtain rfl : frame' = frame := Except.ok.inj (hframe'.symm.trans hframe)
  have hreach := hstorage.enter hslots
  rw [List.append_assoc] at hreach
  refine @StmtTyped.lowers ⟨env, storage.enter frame', name, finish⟩ _ _ _ h.body hreach ?_
  exact fun e he => ⟨htypes e he, hcounts _ (List.mem_map_of_mem he)⟩

theorem FuncDef.Typed.lowerFunction_moves {definition : FuncDef} {result : Ty}
    (h : definition.Typed env.symbols env.entry reach result)
    (hstorage : storage.Covers env.symbols reach)
    (htypes : ∀ e ∈ definition.body.exprs, env.types.get? e.node.id = some (e.ty env.symbols))
    (hcounts : ∀ n ∈ definition.argCounts, n * wordBytes < Word.count) :
    Moves (env.lowerFunction storage definition) 0 0 := by
  obtain ⟨frame, hframe, _⟩ := StackFrame.ofFunction_total h.params h.locals
  have hrequest (name : String) (s : LowerState) :
      ∃ label t, Lower.requestLabel name s = .ok label t ∧ t.depth = s.depth ∧ True :=
    ⟨_, _, Lower.requestLabel_ok.2 ⟨rfl, rfl⟩, rfl, trivial⟩
  refine .after (hrequest _) fun start _ => ?_
  refine .after (hrequest _) fun finish _ => ?_
  refine .after (P := fun x => x = frame) ?_ fun _ hx => ?_
  · exact fun s => ⟨frame, s, Lower.ofExcept_ok.2 ⟨hframe, rfl⟩, rfl, rfl⟩
  subst hx
  obtain ⟨_, _, hbody⟩ := h.lowers hstorage htypes hcounts hframe
    (env.symbols.get definition.symbol).name finish
  exact hbody.bind (by decide) fun code => .pure _

theorem Storage.Covers.withGlobal (h : storage.Covers env.symbols reach) (id : SymbolId)
    (label : String) : (storage.withGlobal id label).Covers env.symbols (id :: reach) := by
  intro other hother hsize
  by_cases heq : other = id
  · simp [Storage.withGlobal, heq]
  · have hmem := (List.mem_cons.1 hother).resolve_left heq
    simpa [Storage.withGlobal, List.lookup_cons, beq_eq_false_iff_ne.2 heq] using h other hmem hsize

theorem Storage.Covers.func (h : storage.Covers env.symbols reach) {definition : FuncDef}
    {result : Ty}
    (hfunc : definition.Typed env.symbols env.entry (definition.symbol :: reach) result) :
    storage.Covers env.symbols (definition.symbol :: reach) := by
  intro other hother hsize
  rcases List.mem_cons.1 hother with rfl | hmem
  · rw [hfunc.signature] at hsize
    nomatch hsize
  · exact h other hmem hsize

theorem Environment.reserveGlobal_total {decl : VarDecl}
    (h : (env.symbols.get decl.symbol).ty.size?.isSome)
    (hstorage : storage.Covers env.symbols reach) (s : LowerState) :
    ∃ line storage' t, env.reserveGlobal storage decl s = .ok (line, storage') t ∧
      t.depth = s.depth ∧ storage'.Covers env.symbols (decl.symbol :: reach) := by
  obtain ⟨bytes, hbytes⟩ := Option.isSome_iff_exists.1 h
  exact ⟨_, _, _, reserveGlobal_ok.2 ⟨bytes, hbytes, rfl, rfl, rfl⟩, rfl, hstorage.withGlobal _ _⟩

theorem Typed.lowerOnto_total {decls : List Decl} (h : Typed env.symbols env.entry reach decls)
    (hstorage : storage.Covers env.symbols reach)
    (htypes : ∀ definition, .func definition ∈ decls → ∀ e ∈ definition.body.exprs,
      env.types.get? e.node.id = some (e.ty env.symbols))
    (hcounts : ∀ definition, .func definition ∈ decls →
      ∀ n ∈ definition.argCounts, n * wordBytes < Word.count) (s : LowerState) :
    ∃ segments storage' t, env.lowerOnto storage decls s = .ok (segments, storage') t ∧
      t.depth = s.depth := by
  induction h generalizing storage s with
  | nil => exact ⟨_, _, s, rfl, rfl⟩
  | @var reach decl decls hscalar _ ih =>
    have hsize : (env.symbols.get decl.symbol).ty.size?.isSome := by
      rw [Ty.size?_of_isScalar hscalar]
      rfl
    obtain ⟨line, storage', t, hline, ht, hcovers⟩ :=
      Environment.reserveGlobal_total hsize hstorage s
    obtain ⟨rest, storage'', u, hrest, hu⟩ := ih hcovers
      (fun d hd => htypes d (List.mem_cons_of_mem _ hd))
      (fun d hd => hcounts d (List.mem_cons_of_mem _ hd)) t
    exact ⟨_, storage'', u, Environment.lowerOnto_cons_ok.2 ⟨_, storage', t, rest,
      Environment.lowerDecl_var_ok.2 ⟨line, hline, rfl⟩, hrest, rfl⟩, hu.trans ht⟩
  | @array reach decl decls hsize _ ih =>
    obtain ⟨line, storage', t, hline, ht, hcovers⟩ :=
      Environment.reserveGlobal_total hsize hstorage s
    obtain ⟨rest, storage'', u, hrest, hu⟩ := ih hcovers
      (fun d hd => htypes d (List.mem_cons_of_mem _ hd))
      (fun d hd => hcounts d (List.mem_cons_of_mem _ hd)) t
    exact ⟨_, storage'', u, Environment.lowerOnto_cons_ok.2 ⟨_, storage', t, rest,
      Environment.lowerDecl_var_ok.2 ⟨line, hline, rfl⟩, hrest, rfl⟩, hu.trans ht⟩
  | @func reach definition decls result hfunc _ ih =>
    obtain ⟨code, t, hcode, ht⟩ := hfunc.lowerFunction_moves (hstorage.func hfunc)
      (htypes definition List.mem_cons_self) (hcounts definition List.mem_cons_self) s
      (Nat.zero_le _)
    obtain ⟨rest, storage'', u, hrest, hu⟩ := ih (hstorage.func hfunc)
      (fun d hd => htypes d (List.mem_cons_of_mem _ hd))
      (fun d hd => hcounts d (List.mem_cons_of_mem _ hd)) t
    exact ⟨_, storage'', u, Environment.lowerOnto_cons_ok.2 ⟨_, storage, t, rest,
      Environment.lowerDecl_func_ok.2 ⟨code, hcode, rfl, rfl⟩, hrest, rfl⟩, hu.trans ht⟩

theorem Typed.split {before rest : List Decl}
    (h : Typed env.symbols env.entry reach (before ++ rest))
    (hstorage : storage.Covers env.symbols reach) {s t : LowerState} {segments : Segments}
    {storage' : Storage} (hrun : env.lowerOnto storage before s = .ok (segments, storage') t) :
    Typed env.symbols env.entry ((before.map Decl.symbol).reverse ++ reach) rest ∧
      storage'.Covers env.symbols ((before.map Decl.symbol).reverse ++ reach) := by
  induction before generalizing reach storage s segments with
  | nil =>
    obtain ⟨_, rfl, _⟩ := Environment.lowerOnto_nil_ok.1 hrun
    exact ⟨h, hstorage⟩
  | cons decl before ih =>
    obtain ⟨_, storage₁, u, _, hdecl, hrest, _⟩ := Environment.lowerOnto_cons_ok.1 hrun
    rw [List.map_cons, List.reverse_cons, List.append_assoc]
    cases h with
    | var _ htail =>
      obtain ⟨_, hline, _⟩ := Environment.lowerDecl_var_ok.1 hdecl
      obtain ⟨_, _, _, rfl, _⟩ := Environment.reserveGlobal_ok.1 hline
      exact ih htail (hstorage.withGlobal _ _) hrest
    | array _ htail =>
      obtain ⟨_, hline, _⟩ := Environment.lowerDecl_var_ok.1 hdecl
      obtain ⟨_, _, _, rfl, _⟩ := Environment.reserveGlobal_ok.1 hline
      exact ih htail (hstorage.withGlobal _ _) hrest
    | func hfunc htail =>
      obtain ⟨_, _, _, rfl⟩ := Environment.lowerDecl_func_ok.1 hdecl
      exact ih htail (hstorage.func hfunc) hrest

end

section

variable {env : Environment} {isName : String → Prop} {decls : List Decl}

theorem Accepted.covers (h : Accepted env isName decls) :
    Storage.empty.Covers env.symbols Scope.initial.current.ids := by
  intro id hid hsize
  obtain ⟨hbound, hbuiltin⟩ := Scope.initial_unsized id hid
  rw [SymbolTable.get_of_prefix h.builtins hbound, hbuiltin] at hsize
  nomatch hsize

def CompiledFunction.outside (f : CompiledFunction env decls) : List SymbolId :=
  f.definition.symbol :: ((f.before.map Decl.symbol).reverse ++ Scope.initial.current.ids)

theorem Accepted.function (h : Accepted env isName decls) (f : CompiledFunction env decls) :
    ∃ result, f.definition.Typed env.symbols env.entry f.outside result ∧
      f.storage.Covers env.symbols f.outside := by
  have htyped := h.typed
  rw [f.split] at htyped
  obtain ⟨htail, hcovers⟩ := htyped.split h.covers f.reached
  cases htail with
  | func hfunc _ => exact ⟨_, hfunc, hcovers.func hfunc⟩

theorem Accepted.function_lowers (h : Accepted env isName decls) (f : CompiledFunction env decls)
    (hcounts : ∀ n ∈ f.definition.argCounts, n * wordBytes < Word.count) :
    (∀ e ∈ f.definition.body.exprs, e.Grows f.body) ∧
      ∀ s ∈ f.definition.body.substmts, Moves (s.lower f.body) 0 0 := by
  obtain ⟨result, htyped, hcovers⟩ := h.function f
  obtain ⟨hexprs, hstmts, _⟩ := htyped.lowers hcovers (h.entered f.definition f.mem) hcounts
    f.framed f.symbol.name f.finish
  exact ⟨hexprs, hstmts⟩

theorem Accepted.lower_total (h : Accepted env isName decls) (node : Node)
    (hcounts : ∀ n ∈ (Tree.program node decls).argCounts, n * wordBytes < Word.count) :
    ∃ program, env.lower (.program node decls) = .ok program ∧ program.depth = 0 := by
  obtain ⟨segments, storage, t, hrun, ht⟩ := h.typed.lowerOnto_total h.covers h.entered
    (fun d hd n hn => hcounts n (List.mem_flatMap.2 ⟨_, hd, hn⟩)) LowerState.initial
  exact ⟨_, Environment.lower_ok.2 ⟨segments, storage, t, hrun, rfl⟩, ht⟩

end

section

variable {σ : Type} [TokenStream σ] {stream : σ} {entry : String}

theorem lower_of_clean
    (hcounts : ∀ n ∈ (parse stream).tree.argCounts, n * wordBytes < Word.count)
    (hparse : (parse stream).log = [])
    (hcheck : (check (parse stream).symbols entry (parse stream).tree).log = []) :
    ∃ program, (Environment.ofStream stream entry).lower (parse stream).tree = .ok program ∧
      program.depth = 0 ∧ ∃ node decls, (parse stream).tree = .program node decls ∧
      Accepted (Environment.ofStream stream entry) (fun _ => True) decls := by
  obtain ⟨node, decls, htree, haccepted⟩ : ∃ node decls, (parse stream).tree = .program node decls ∧
      Accepted (Environment.ofStream stream entry) (fun _ => True) decls :=
    accepted_of_clean hparse hcheck fun _ _ _ => trivial
  rw [htree] at hcounts ⊢
  obtain ⟨program, hprogram, hdepth⟩ := haccepted.lower_total node hcounts
  exact ⟨program, hprogram, hdepth, node, decls, rfl, haccepted⟩

theorem compile_of_clean
    (hcounts : ∀ n ∈ (parse stream).tree.argCounts, n * wordBytes < Word.count)
    (hparse : (parse stream).log = [])
    (hcheck : (check (parse stream).symbols entry (parse stream).tree).log = []) :
    ∃ text, compile stream ⟨entry, false⟩ = .ok ⟨some text, (parse stream).nodeCount⟩ := by
  obtain ⟨program, hprogram, _⟩ := lower_of_clean hcounts hparse hcheck
  exact ⟨program.text, compile_ok.2 ⟨hparse, hcheck, rfl, .inr ⟨rfl, program, hprogram, rfl⟩⟩⟩

end

/-- A program that is parsed and checked without a diagnostic is lowered without a fault, unless the
arguments of some call fill more bytes than a word can count. Its expressions leave one word on the
stack each, calls that return nothing leave none, and statements leave the stack as it was. So
lowering never decides whether a program compiles. -/
theorem checked_programs_lower {σ : Type} [TokenStream σ] (stream : σ) (entry : String)
    (hcounts : ∀ n ∈ (parse stream).tree.argCounts, n * wordBytes < Word.count) :
    ((parse stream).log = [] →
      (check (parse stream).symbols entry (parse stream).tree).log = [] →
      ∃ program, (Environment.ofStream stream entry).lower (parse stream).tree = .ok program ∧
        program.depth = 0 ∧
        (∀ definition, .func definition ∈ (parse stream).tree.decls →
          ∃ f : CompiledFunction (Environment.ofStream stream entry) (parse stream).tree.decls,
            f.definition = definition) ∧
        ∀ f : CompiledFunction (Environment.ofStream stream entry) (parse stream).tree.decls,
          (∀ e ∈ f.definition.body.exprs, ∀ s, ∃ code t, e.lower f.body s = .ok code t ∧
            t.depth = s.depth + if (e.ty (parse stream).symbols).isVoid then 0 else 1) ∧
          ∀ stmt ∈ f.definition.body.substmts, ∀ s, ∃ code t, stmt.lower f.body s = .ok code t ∧
            t.depth = s.depth) ∧
    (∀ checkOnly fault, compile stream ⟨entry, checkOnly⟩ ≠ .error (.lower fault)) ∧
    ∀ n, (∃ a, compile stream ⟨entry, true⟩ = .ok ⟨a, n⟩) ↔
      ∃ a, compile stream ⟨entry, false⟩ = .ok ⟨a, n⟩ := by
  refine ⟨fun hparse hcheck => ?_, fun checkOnly fault hfault => ?_, fun n => ?_⟩
  · obtain ⟨program, hprogram, hdepth, node, decls, htree, haccepted⟩ :=
      lower_of_clean hcounts hparse hcheck
    refine ⟨program, hprogram, hdepth, ?_⟩
    rw [htree] at hprogram hcounts ⊢
    refine ⟨fun definition hmem => CompiledFunction.exists_of_lower hprogram hmem, fun f => ?_⟩
    obtain ⟨hexprs, hstmts⟩ := haccepted.function_lowers f
      fun n hn => hcounts n (List.mem_flatMap.2 ⟨_, f.mem, hn⟩)
    exact ⟨fun e he s => hexprs e he s (Nat.zero_le _),
      fun stmt hstmt s => hstmts stmt hstmt s (Nat.zero_le _)⟩
  · obtain ⟨hparse, hcheck, hrun⟩ := compile_fault hfault
    obtain ⟨program, hprogram, _⟩ := lower_of_clean hcounts hparse hcheck
    exact nomatch hprogram.symm.trans hrun
  · constructor
    · rintro ⟨_, hrun⟩
      obtain ⟨hparse, hcheck, rfl, _⟩ := compile_ok.1 hrun
      obtain ⟨text, htext⟩ := compile_of_clean hcounts hparse hcheck
      exact ⟨some text, htext⟩
    · rintro ⟨_, hrun⟩
      obtain ⟨hparse, hcheck, hcount, _⟩ := compile_ok.1 hrun
      exact ⟨none, compile_ok.2 ⟨hparse, hcheck, hcount, .inl ⟨rfl, rfl⟩⟩⟩

def doubling : String :=
  "func twice(a : int) : int \x7b return a + a; \x7d " ++
    "func main() : void \x7b ::printInt(::twice(21)); \x7d"

theorem doubling_lowers :
    (∀ n ∈ (parse (Scanner.ofText doubling)).tree.argCounts, n * wordBytes < Word.count) ∧
      ∃ program, (Environment.ofStream (Scanner.ofText doubling) "main").lower
        (parse (Scanner.ofText doubling)).tree = .ok program ∧ program.depth = 0 := by
  have hclean : (∀ n ∈ (parse (Scanner.ofText doubling)).tree.argCounts,
        n * wordBytes < Word.count) ∧
      (parse (Scanner.ofText doubling)).log = [] ∧
      (check (parse (Scanner.ofText doubling)).symbols "main"
        (parse (Scanner.ofText doubling)).tree).log = [] := by
    decide +kernel
  obtain ⟨hcounts, hparse, hcheck⟩ := hclean
  obtain ⟨program, hprogram, hdepth, _⟩ :=
    (checked_programs_lower (Scanner.ofText doubling) "main" hcounts).1 hparse hcheck
  exact ⟨hcounts, program, hprogram, hdepth⟩

end MipsCompiler
