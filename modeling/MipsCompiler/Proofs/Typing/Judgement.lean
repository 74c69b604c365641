import MipsCompiler.Proofs.Parts
import MipsCompiler.Typing.Expression
import MipsCompiler.Ty.Size

set_option autoImplicit false

/-!
# Typing judgements

`WellTyped` says in which contexts an expression may stand: as a place of a type that has a size, or
as a value of a scalar type, or, for a call alone, as no value at all. It is stated by rules and not
by the algebra of types, in which an expression of any type is possible. `value_typed` leads from the
algebra to the rules.
-/

namespace MipsCompiler

namespace Ty

/-- The type of a value that is left on the stack, or `void` when none is. -/
def isResult (t : Ty) : Bool :=
  t.isScalar || t.isVoid

/-- The types that a declaration may have: something with a size, or a function on scalars. -/
def isDeclarable (t : Ty) : Bool :=
  match t with
  | func params result => params.all isScalar && result.isResult
  | _ => t.size?.isSome

theorem size?_of_isScalar {t : Ty} (h : t.isScalar) : t.size? = some wordBytes := by
  cases t with
  | int | float | bool => rfl
  | _ => nomatch h

theorem isScalar_of_isResult {t : Ty} (h : t.isResult) (hvoid : t.isVoid = false) : t.isScalar := by
  simpa [isResult, hvoid] using h

theorem isVoid_of_isScalar {t : Ty} (h : t.isScalar) : t.isVoid = false := by
  cases t with
  | void => nomatch h
  | _ => rfl

theorem isError_of_isResult {t : Ty} (h : t.isResult) : t.isError = false := by
  cases t with
  | error => nomatch h
  | _ => rfl

theorem isResult_of_isScalar {t : Ty} (h : t.isScalar) : t.isResult := by
  rw [isResult, h]
  rfl

theorem isError_of_isDeclarable {t : Ty} (h : t.isDeclarable) : t.isError = false := by
  cases t with
  | error => nomatch h
  | _ => rfl

theorem isSome_size?_of_array {extent : Nat} {t : Ty} (h : (array extent t).size?.isSome) :
    t.size?.isSome := by
  cases ht : t.size? with
  | none => simp [size?, ht] at h
  | some bytes => rfl

theorem firstError_eq_none {ts : List Ty} :
    firstError ts = none ↔ ∀ t ∈ ts, t.isError = false := by
  simp [firstError]

/-- A rule that gives no error has none among its operands, and is defined on them. -/
theorem getD_firstError {ts : List Ty} {result : Option Ty} {fault : TypeFault} {t : Ty}
    (h : (firstError ts).getD (result.getD fault.ty) = t) (ht : t.isError = false) :
    (∀ t ∈ ts, t.isError = false) ∧ result = some t := by
  cases hfirst : firstError ts with
  | some error =>
    rw [hfirst] at h
    have herror := List.find?_some hfirst
    subst h
    exact absurd herror (by simpa using ht)
  | none =>
    rw [hfirst] at h
    refine ⟨firstError_eq_none.1 hfirst, ?_⟩
    cases result with
    | some r => exact congrArg some h
    | none => exact absurd ht (h ▸ Bool.noConfusion)

theorem getD_of_defined {ts : List Ty} (h : ∀ t ∈ ts, t.isError = false) (t : Ty) (fault : TypeFault) :
    (firstError ts).getD ((some t).getD fault.ty) = t := by
  rw [firstError_eq_none.2 h]
  rfl

theorem binary_eq {op : Operation} {left right t : Ty} (h : binary op left right = t)
    (ht : t.isError = false) : combine? op left right = some t :=
  (getD_firstError h ht).2

theorem assign_eq {target source t : Ty} (h : assign target source = t) (ht : t.isError = false) :
    store? target source = some t :=
  (getD_firstError h ht).2

theorem store?_eq {target source t : Ty} (h : store? target source = some t) :
    target = address source ∧ source.isScalar := by
  cases target with
  | address base =>
    simp only [store?] at h
    split at h
    · next hstore =>
      simp only [Bool.and_eq_true, decide_eq_true_eq] at hstore
      exact ⟨congrArg address hstore.2, hstore.2 ▸ hstore.1⟩
    · nomatch h
  | _ => nomatch h

theorem call_eq {callee t : Ty} {args : List Ty} (h : call callee args = t)
    (ht : t.isError = false) : callee = func args t := by
  have hresult := (getD_firstError h ht).2
  cases callee with
  | func params result =>
    simp only [callResult?] at hresult
    split at hresult
    · next heq => simp_all
    · exact absurd hresult (by simp)
  | _ => exact absurd hresult (by simp [callResult?])

theorem deref_eq {operand t : Ty} (h : deref operand = t) (ht : t.isError = false) :
    operand = address t := by
  cases operand with
  | address base => exact congrArg address h
  | _ => exact absurd ht (h ▸ by simp [deref, TypeFault.ty, isError])

theorem negate_eq {operand t : Ty} (h : negate operand = t) (ht : t.isError = false) :
    operand = bool ∧ t = bool := by
  cases operand with
  | bool => exact ⟨rfl, h.symm⟩
  | _ => exact absurd ht (h ▸ by simp [negate, TypeFault.ty, isError])

theorem combine?_eq {op : Operation} {left right t : Ty} (h : combine? op left right = some t) :
    left.isScalar ∧ right.isScalar ∧ t.isScalar := by
  unfold combine? at h
  split at h <;> cases h <;> exact ⟨rfl, rfl, rfl⟩

end Ty

inductive Judgement where
  | place (e : Expr) (ty : Ty)
  | value (e : Expr) (ty : Ty)
  | values (es : List Expr) (tys : List Ty)

/-- The rules of typing, for expressions whose names are among `reach`. -/
inductive WellTyped (symbols : SymbolTable) (reach : List SymbolId) : Judgement → Prop
  | name {node : Node} {id : SymbolId} :
      id ∈ reach → (symbols.get id).ty.size?.isSome →
      WellTyped symbols reach (.place (.address node id) (symbols.get id).ty)
  | element {node : Node} {base offset : Expr} {extent : Nat} {ty : Ty} :
      WellTyped symbols reach (.place base (.array extent ty)) →
      WellTyped symbols reach (.value offset .int) →
      WellTyped symbols reach (.place (.index node base offset) ty)
  | literal {node : Node} {value : Literal} :
      WellTyped symbols reach (.value (.literal node value) value.ty)
  | load {node : Node} {place : Expr} {ty : Ty} :
      WellTyped symbols reach (.place place ty) → ty.isScalar →
      WellTyped symbols reach (.value (.deref node place) ty)
  | binary {node : Node} {op : BinaryOp} {left right : Expr} {leftTy rightTy ty : Ty} :
      WellTyped symbols reach (.value left leftTy) →
      WellTyped symbols reach (.value right rightTy) →
      Ty.combine? op.operation leftTy rightTy = some ty →
      WellTyped symbols reach (.value (.binary node op left right) ty)
  | negation {node : Node} {operand : Expr} :
      WellTyped symbols reach (.value operand .bool) →
      WellTyped symbols reach (.value (.not node operand) .bool)
  | call {node : Node} {callee : SymbolId} {args : List Expr} {params : List Ty} {result : Ty} :
      callee ∈ reach → (symbols.get callee).ty = .func params result → result.isResult →
      WellTyped symbols reach (.values args params) →
      WellTyped symbols reach (.value (.call node callee args) result)
  | nil : WellTyped symbols reach (.values [] [])
  | cons {e : Expr} {es : List Expr} {ty : Ty} {tys : List Ty} :
      WellTyped symbols reach (.value e ty) → ty.isScalar →
      WellTyped symbols reach (.values es tys) →
      WellTyped symbols reach (.values (e :: es) (ty :: tys))

namespace Judgement

/-- The type that a judgement gives, in terms of the algebra. -/
def Agrees (symbols : SymbolTable) : Judgement → Prop
  | .place e ty => e.ty symbols = .address ty ∧ ty.size?.isSome
  | .value e ty => e.ty symbols = ty ∧ ty.isResult
  | .values es tys => Expr.tys symbols es = tys ∧ ∀ ty ∈ tys, ty.isScalar

def subexprs : Judgement → List Expr
  | .place e _ => e.subexprs
  | .value e _ => e.subexprs
  | .values es _ => Expr.subexprsAll es

end Judgement

namespace WellTyped

variable {symbols : SymbolTable} {reach : List SymbolId}

theorem agrees {judgement : Judgement} (h : WellTyped symbols reach judgement) :
    judgement.Agrees symbols := by
  induction h with
  | @name node id hid hsize =>
    refine ⟨?_, hsize⟩
    rw [Expr.ty]
    generalize (symbols.get id).ty = ty at hsize
    cases ty with
    | error => nomatch hsize
    | _ => rfl
  | element _ _ ihbase ihoffset =>
    refine ⟨?_, Ty.isSome_size?_of_array ihbase.2⟩
    rw [Expr.ty, ihbase.1, ihoffset.1]
    rfl
  | @literal node value => cases value <;> exact ⟨rfl, rfl⟩
  | load _ hscalar ih =>
    refine ⟨?_, Ty.isResult_of_isScalar hscalar⟩
    rw [Expr.ty, ih.1]
    rfl
  | binary _ _ hcombine ihleft ihright =>
    refine ⟨?_, Ty.isResult_of_isScalar (Ty.combine?_eq hcombine).2.2⟩
    rw [Expr.ty, ihleft.1, ihright.1, Ty.binary, hcombine]
    refine Ty.getD_of_defined ?_ _ _
    simp [Ty.isError_of_isResult ihleft.2, Ty.isError_of_isResult ihright.2]
  | negation _ ih =>
    refine ⟨?_, rfl⟩
    rw [Expr.ty, ih.1]
    rfl
  | @call node callee args params result _ hcallee hresult _ ih =>
    refine ⟨?_, hresult⟩
    have hdefined : Ty.callResult? (.func params result) params = some result := by
      simp [Ty.callResult?]
    rw [Expr.ty, hcallee, ih.1, Ty.call, hdefined]
    refine Ty.getD_of_defined ?_ _ _
    intro t ht
    rcases List.mem_cons.1 ht with rfl | ht
    · rfl
    · exact Ty.isError_of_isResult (Ty.isResult_of_isScalar (ih.2 t ht))
  | nil => exact ⟨rfl, fun _ h => absurd h List.not_mem_nil⟩
  | cons _ hscalar _ ih ihs =>
    refine ⟨?_, ?_⟩
    · rw [Expr.tys, ih.1, ihs.1]
    · intro t ht
      rcases List.mem_cons.1 ht with rfl | ht
      · exact hscalar
      · exact ihs.2 t ht

theorem calls {judgement : Judgement} (h : WellTyped symbols reach judgement) {node : Node}
    {callee : SymbolId} {args : List Expr} (hcall : .call node callee args ∈ judgement.subexprs) :
    ∃ ty, WellTyped symbols reach (.value (.call node callee args) ty) := by
  induction h with
  | name | literal => nomatch List.mem_singleton.1 hcall
  | element _ _ ihbase ihoffset =>
    rcases List.mem_cons.1 hcall with heq | hcall
    · nomatch heq
    · exact (List.mem_append.1 hcall).elim ihbase ihoffset
  | load _ _ ih =>
    rcases List.mem_cons.1 hcall with heq | hcall
    · nomatch heq
    · exact ih hcall
  | binary _ _ _ ihleft ihright =>
    rcases List.mem_cons.1 hcall with heq | hcall
    · nomatch heq
    · exact (List.mem_append.1 hcall).elim ihleft ihright
  | negation _ ih =>
    rcases List.mem_cons.1 hcall with heq | hcall
    · nomatch heq
    · exact ih hcall
  | call hid hcallee hresult hargs ih =>
    rcases List.mem_cons.1 hcall with heq | hcall
    · cases heq
      exact ⟨_, .call hid hcallee hresult hargs⟩
    · exact ih hcall
  | nil => exact absurd hcall List.not_mem_nil
  | cons _ _ _ ih ihs => exact (List.mem_append.1 hcall).elim ih ihs

theorem length_eq {args : List Expr} {tys : List Ty}
    (h : WellTyped symbols reach (.values args tys)) : args.length = tys.length := by
  induction args generalizing tys with
  | nil =>
    cases h
    rfl
  | cons e es ih =>
    cases h with
    | cons _ _ hes => exact congrArg Nat.succ (ih hes)

end WellTyped

section

variable {symbols : SymbolTable} {reach : List SymbolId}

/-- The type of a place is an address, unless something in it is broken. -/
theorem Expr.ty_of_isPlace {e : Expr} (h : e.isPlace) (herror : (e.ty symbols).isError = false) :
    ∃ t, e.ty symbols = .address t := by
  cases e with
  | address node id =>
    rw [Expr.ty] at herror ⊢
    cases hty : (symbols.get id).ty with
    | error => simp [hty, Ty.place, Ty.isError] at herror
    | _ => exact ⟨_, rfl⟩
  | index node base offset =>
    obtain ⟨hbase, _⟩ := Bool.and_eq_true_iff.1 h
    generalize hty : Expr.ty symbols (.index node base offset) = ty at herror ⊢
    obtain ⟨hinputs, helement⟩ := Ty.getD_firstError hty herror
    obtain ⟨t, ht⟩ := Expr.ty_of_isPlace hbase (hinputs _ List.mem_cons_self)
    rw [ht] at helement
    generalize offset.ty symbols = offsetTy at helement
    cases t with
    | array extent element =>
      cases offsetTy with
      | int => exact ⟨element, (Option.some.inj helement).symm⟩
      | _ => cases helement
    | _ => cases helement
  | _ => cases h

theorem WellTyped.name_of_eq {node : Node} {id : SymbolId} {t : Ty} (hid : id ∈ reach)
    (ht : (symbols.get id).ty = t) (hsize : t.size?.isSome) :
    WellTyped symbols reach (.place (.address node id) t) := by
  subst ht
  exact .name hid hsize

mutual

theorem Expr.place_typed {e : Expr} {t : Ty}
    (hreach : ∀ id ∈ reach, (symbols.get id).ty.isDeclarable) (hshape : e.isPlace)
    (hmentions : ∀ id ∈ e.mentions, id ∈ reach) (hty : e.ty symbols = .address t) :
    WellTyped symbols reach (.place e t) ∨ ∃ params result, t = .func params result := by
  cases e with
  | address node id =>
    have hid := hmentions id List.mem_cons_self
    have hdeclarable := hreach id hid
    rw [Expr.ty] at hty
    cases hdeclared : (symbols.get id).ty with
    | func params result =>
      rw [hdeclared] at hty
      cases hty
      exact .inr ⟨params, result, rfl⟩
    | error => rw [hdeclared] at hdeclarable; nomatch hdeclarable
    | _ =>
      rw [hdeclared] at hty hdeclarable
      cases hty
      exact .inl (.name_of_eq hid hdeclared hdeclarable)
  | index node base offset =>
    obtain ⟨hbase, hoffset⟩ := Bool.and_eq_true_iff.1 hshape
    obtain ⟨hinputs, helement⟩ := Ty.getD_firstError hty rfl
    obtain ⟨u, hu⟩ := Expr.ty_of_isPlace hbase (hinputs _ List.mem_cons_self)
    rw [hu] at helement
    cases hoffsetTy : offset.ty symbols with
    | int =>
      rw [hoffsetTy] at helement
      cases u with
      | array extent element =>
        cases helement
        have hplace := Expr.place_typed hreach hbase
          (fun id hid => hmentions id (List.mem_append_left _ hid)) hu
        have hvalue := Expr.value_typed hreach hoffset
          (fun id hid => hmentions id (List.mem_append_right _ hid)) hoffsetTy rfl
        rcases hplace with hplace | ⟨params, result, hfunc⟩
        · exact .inl (.element hplace hvalue)
        · nomatch hfunc
      | _ => nomatch helement
    | _ =>
      rw [hoffsetTy] at helement
      cases u <;> nomatch helement
  | _ => nomatch hshape

theorem Expr.value_typed {e : Expr} {t : Ty}
    (hreach : ∀ id ∈ reach, (symbols.get id).ty.isDeclarable) (hshape : e.isValue)
    (hmentions : ∀ id ∈ e.mentions, id ∈ reach) (hty : e.ty symbols = t) (ht : t.isResult) :
    WellTyped symbols reach (.value e t) := by
  have herror := Ty.isError_of_isResult ht
  cases e with
  | literal node value => exact hty ▸ .literal
  | deref node place =>
    rcases Expr.place_typed hreach hshape hmentions (Ty.deref_eq hty herror) with hplace | hfunc
    · have hsize := hplace.agrees.2
      refine .load hplace (Ty.isScalar_of_isResult ht ?_)
      cases t with
      | void => nomatch hsize
      | _ => rfl
    · obtain ⟨params, result, rfl⟩ := hfunc
      nomatch ht
  | binary node op left right =>
    obtain ⟨hleft, hright⟩ := Bool.and_eq_true_iff.1 hshape
    have hcombine := Ty.binary_eq hty herror
    obtain ⟨hleftTy, hrightTy, _⟩ := Ty.combine?_eq hcombine
    exact .binary
      (Expr.value_typed hreach hleft (fun id hid => hmentions id (List.mem_append_left _ hid)) rfl
        (Ty.isResult_of_isScalar hleftTy))
      (Expr.value_typed hreach hright (fun id hid => hmentions id (List.mem_append_right _ hid)) rfl
        (Ty.isResult_of_isScalar hrightTy)) hcombine
  | not node operand =>
    obtain ⟨hoperand, rfl⟩ := Ty.negate_eq hty herror
    exact .negation (Expr.value_typed hreach hshape hmentions hoperand rfl)
  | call node callee args =>
    have hid := hmentions callee List.mem_cons_self
    have hcallee := Ty.call_eq hty herror
    have hdeclarable := hreach callee hid
    rw [hcallee] at hdeclarable
    obtain ⟨hparams, hresult⟩ := Bool.and_eq_true_iff.1 hdeclarable
    exact .call hid hcallee hresult
      (Expr.values_typed hreach hshape (fun id hid => hmentions id (List.mem_cons_of_mem _ hid)) rfl
        (List.all_eq_true.1 hparams))
  | _ => nomatch hshape

theorem Expr.values_typed {es : List Expr} {ts : List Ty}
    (hreach : ∀ id ∈ reach, (symbols.get id).ty.isDeclarable) (hshape : Expr.areValues es)
    (hmentions : ∀ id ∈ Expr.mentionsAll es, id ∈ reach) (hty : Expr.tys symbols es = ts)
    (ht : ∀ t ∈ ts, t.isScalar) : WellTyped symbols reach (.values es ts) := by
  cases es with
  | nil => exact hty ▸ .nil
  | cons e es =>
    obtain ⟨he, hes⟩ := Bool.and_eq_true_iff.1 hshape
    subst hty
    have hscalar := ht _ List.mem_cons_self
    exact .cons
      (Expr.value_typed hreach he (fun id hid => hmentions id (List.mem_append_left _ hid)) rfl
        (Ty.isResult_of_isScalar hscalar)) hscalar
      (Expr.values_typed hreach hes (fun id hid => hmentions id (List.mem_append_right _ hid)) rfl
        (fun t h => ht t (List.mem_cons_of_mem _ h)))

end

end

end MipsCompiler
