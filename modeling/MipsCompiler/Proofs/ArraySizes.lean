import Mathlib.Algebra.BigOperators.Ring.List
import Mathlib.Algebra.Ring.Nat
import Mathlib.Data.List.Infix
import MipsCompiler.Proofs.Reports
import MipsCompiler.Proofs.Typing.Declarative

set_option autoImplicit false

/-!
# Sizes of arrays

The size of an array is computed from the innermost extent outwards, and each size on the way has to
fit in a word. An extent of zero makes the whole array small, but it does not help the part inside of
it. So an array is too large if the bytes of all its scalars do not fit, and also if it has no elements
and there is an array that does not fit inside an extent of zero.
-/

namespace MipsCompiler

def arrayBytes (extents : List Nat) : Nat :=
  wordBytes * extents.prod

/-- Inside an extent of zero there is an array that does not fit in a word. -/
def HidesOversized (extents : List Nat) : Prop :=
  ∃ outer inner, extents = outer ++ inner ∧ 0 ∈ outer ∧ Word.count ≤ arrayBytes inner

/-! ## Products of extents -/

theorem arrayBytes_cons (extent : Nat) (extents : List Nat) :
    arrayBytes (extent :: extents) = arrayBytes extents * extent := by
  rw [arrayBytes, arrayBytes, List.prod_cons, Nat.mul_assoc, Nat.mul_comm extent]

theorem arrayBytes_append (outer inner : List Nat) :
    arrayBytes (outer ++ inner) = outer.prod * arrayBytes inner := by
  rw [arrayBytes, arrayBytes, List.prod_append, Nat.mul_left_comm]

theorem HidesOversized.arrayBytes_eq_zero {extents : List Nat} (h : HidesOversized extents) :
    arrayBytes extents = 0 := by
  obtain ⟨outer, inner, rfl, hzero, _⟩ := h
  rw [arrayBytes_append, List.prod_eq_zero hzero, Nat.zero_mul]

theorem forall_suffix_fits_iff (extents : List Nat) :
    (∀ inner, inner <:+ extents → arrayBytes inner < Word.count) ↔
      arrayBytes extents < Word.count ∧ ¬ HidesOversized extents := by
  constructor
  · intro h
    refine ⟨h extents (List.suffix_refl _), ?_⟩
    rintro ⟨outer, inner, rfl, _, hlarge⟩
    exact absurd (h inner (List.suffix_append _ _)) (Nat.not_lt.2 hlarge)
  · rintro ⟨hfits, hhides⟩ inner ⟨outer, rfl⟩
    by_contra hlarge
    rw [Nat.not_lt] at hlarge
    by_cases hzero : 0 ∈ outer
    · exact hhides ⟨outer, inner, rfl, hzero, hlarge⟩
    · have hpositive : 0 < outer.prod := Nat.pos_of_ne_zero (List.prod_ne_zero hzero)
      have hle : arrayBytes inner ≤ arrayBytes (outer ++ inner) := by
        rw [arrayBytes_append]
        exact Nat.le_mul_of_pos_left _ hpositive
      exact absurd hfits (Nat.not_lt.2 (hlarge.trans hle))

theorem not_fits_iff (extents : List Nat) :
    ¬ (arrayBytes extents < Word.count ∧ ¬ HidesOversized extents) ↔
      Word.count ≤ arrayBytes extents ∨ HidesOversized extents := by
  rw [not_and_or, not_not, Nat.not_lt]

/-! ## Array types -/

namespace Ty

theorem size?_array {extent bytes : Nat} {base : Ty} :
    (array extent base).size? = some bytes ↔
      ∃ inner, base.size? = some inner ∧ bytes = inner * extent ∧ inner * extent < Word.count := by
  rw [size?]
  cases base.size? with
  | none => simp
  | some inner =>
    by_cases hfits : inner * extent < Word.count
    · simp [hfits, eq_comm]
    · simp [hfits]

theorem ofName_size? (name : String) {bytes : Nat} :
    (ofName name).size? = some bytes ↔ (ofName name).isScalar ∧ bytes = wordBytes := by
  unfold ofName TypeFault.ty
  split_ifs <;> simp [size?, isScalar, eq_comm]

theorem ofName_innermost (name : String) : (ofName name).innermost = ofName name := by
  unfold ofName TypeFault.ty
  split_ifs <;> rfl

theorem arrayType_innermost (base : Ty) (extents : List Nat) :
    (Parser.arrayType base extents).innermost = base.innermost := by
  induction extents with
  | nil => rfl
  | cons extent extents ih => exact ih

/-- Every array on the way from the innermost extent outwards has to fit. -/
theorem arrayType_size? (name : String) (extents : List Nat) {bytes : Nat} :
    (Parser.arrayType (ofName name) extents).size? = some bytes ↔
      (ofName name).isScalar ∧ bytes = arrayBytes extents ∧
        ∀ inner, inner <:+ extents → arrayBytes inner < Word.count := by
  induction extents generalizing bytes with
  | nil =>
    have hword : ∀ inner, inner <:+ ([] : List Nat) → arrayBytes inner < Word.count := by
      intro inner hinner
      rw [List.suffix_nil.1 hinner]
      decide
    rw [and_iff_left hword]
    exact ofName_size? name
  | cons extent extents ih =>
    change (array extent (Parser.arrayType (ofName name) extents)).size? = some bytes ↔ _
    rw [size?_array]
    simp only [List.suffix_cons_iff, arrayBytes_cons]
    constructor
    · rintro ⟨inner, hinner, rfl, hfits⟩
      obtain ⟨hscalar, rfl, hinside⟩ := ih.1 hinner
      refine ⟨hscalar, rfl, ?_⟩
      rintro other (rfl | hother)
      · rwa [arrayBytes_cons]
      · exact hinside other hother
    · rintro ⟨hscalar, rfl, hall⟩
      have hinside : ∀ inner, inner <:+ extents → arrayBytes inner < Word.count :=
        fun inner hinner => hall inner (.inr hinner)
      refine ⟨_, ih.2 ⟨hscalar, rfl, hinside⟩, rfl, ?_⟩
      rw [← arrayBytes_cons]
      exact hall _ (.inl rfl)

theorem arrayType_size?_isSome (name : String) (extents : List Nat) :
    (Parser.arrayType (ofName name) extents).size?.isSome ↔
      (ofName name).isScalar ∧ arrayBytes extents < Word.count ∧ ¬ HidesOversized extents := by
  rw [← forall_suffix_fits_iff, Option.isSome_iff_exists]
  simp only [arrayType_size?]
  exact ⟨fun ⟨_, hscalar, _, hall⟩ => ⟨hscalar, hall⟩, fun ⟨hscalar, hall⟩ => ⟨_, hscalar, rfl, hall⟩⟩

end Ty

/-! ## Array declarations -/

theorem Numeral.extent?_lt {lexeme : String} {n : Nat} (h : extent? lexeme = some n) :
    n < Word.count := by
  simp only [extent?, Option.ite_none_right_eq_some, Option.some.injEq] at h
  obtain ⟨⟨_, _, hlt⟩, rfl⟩ := h
  exact hlt

/-- The declaration makes an array of the element type that is named, unless its name is refused. -/
structure VarDecl.HasExtents (symbols : SymbolTable) (decl : VarDecl) (element : String)
    (extents : List Nat) : Prop where
  symbol : decl.symbol < symbols.length
  ne_nil : extents ≠ []
  lt : ∀ n ∈ extents, n < Word.count
  ty : (symbols.get decl.symbol).isError = false →
    (symbols.get decl.symbol).ty = Parser.arrayType (Ty.ofName element) extents

theorem VarDecl.HasExtents.mono {symbols table : SymbolTable} {decl : VarDecl} {element : String}
    {extents : List Nat} (h : decl.HasExtents symbols element extents) (htable : symbols <+: table) :
    decl.HasExtents table element extents := by
  refine ⟨Nat.lt_of_lt_of_le h.symbol htable.length_le, h.ne_nil, h.lt, ?_⟩
  rw [SymbolTable.get_of_prefix htable h.symbol]
  exact h.ty

namespace Parser

variable {σ : Type} [TokenStream σ] {s t : ParseState σ}

theorem Items.extents_lt {extents : List Nat} (h : Items DerivesExtent s extents t) :
    ∀ n ∈ extents, n < Word.count := by
  induction h with
  | nil => exact fun _ hn => absurd hn List.not_mem_nil
  | cons hextent _ ih =>
    obtain ⟨_, _, hvalue, _⟩ := hextent
    exact List.forall_mem_cons.2 ⟨Numeral.extent?_lt hvalue, ih⟩

theorem Items.declared_hasExtents {u v : ParseState σ} {name : Token} {id : SymbolId}
    {extents : List Nat} (hdeclare : s.declare name .array = (id, u)) (hs : s.scope.Bounded)
    (hitems : Items DerivesExtent u.advance.advance extents v) (hne : extents ≠ []) (node : Node)
    (element : String) :
    VarDecl.HasExtents (v.scope.symbols.retype id (arrayType (Ty.ofName element) extents)) ⟨node, id⟩
      element extents := by
  obtain ⟨_, hmade⟩ := ParseState.declare_accounts hdeclare fun _ => SymbolKind.noConfusion
  have hkept : v.naming = u.naming := hitems.extents_naming
  have hid : id < v.naming.symbols.length := hkept ▸ hmade.used hs id List.mem_cons_self
  refine ⟨?_, hne, hitems.extents_lt, ?_⟩
  · exact Nat.lt_of_lt_of_eq hid (SymbolTable.length_retype _ _ _).symm
  · intro herror
    have hget := SymbolTable.get_retype_self hid (arrayType (Ty.ofName element) extents)
    change (SymbolTable.get (SymbolTable.retype v.naming.symbols id _) id).isError = false at herror
    change (SymbolTable.get (SymbolTable.retype v.naming.symbols id _) id).ty = _
    rw [hget] at herror ⊢
    rw [Symbol.isError_retype] at herror
    simp [Symbol.retype, herror]

theorem DerivesArray.hasExtents {decl : VarDecl} (h : DerivesArray s decl t)
    (hs : s.scope.Bounded) :
    ∃ element extents, decl.HasExtents t.scope.symbols element extents := by
  obtain @⟨u, v, id, extents, _, _, hdeclare, _, _, hne, hitems, _⟩ := h
  exact ⟨_, extents, hitems.declared_hasExtents hdeclare hs hne _ _⟩

theorem Items.hasExtents {decls : List Decl} (h : Items DerivesDecl s decls t)
    (hs : s.scope.Bounded) {decl : VarDecl} (hdecl : Decl.array decl ∈ decls) :
    ∃ element extents, decl.HasExtents t.scope.symbols element extents := by
  induction h with
  | nil => exact absurd hdecl List.not_mem_nil
  | cons hfirst hrest ih =>
    have hbounded := (hfirst.accounts hs).1.bounded hs
    rcases List.mem_cons.1 hdecl with rfl | hdecl
    · cases hfirst with
      | array hfirst =>
        obtain ⟨element, extents, hextents⟩ := hfirst.hasExtents hs
        exact ⟨element, extents, hextents.mono (hrest.lists hbounded).1.symbols⟩
    · exact ih hbounded hdecl

end Parser

theorem parse_hasExtents {σ : Type} [TokenStream σ] {stream : σ}
    (h : (parse stream).tree.isError = false) {decl : VarDecl}
    (hdecl : Subtree.decl (.array decl) ∈ (parse stream).parts) :
    ∃ element extents, decl.HasExtents (parse stream).symbols element extents := by
  obtain ⟨_, _, ⟨hdecls, _⟩, hparse⟩ := parse_derives h
  rw [Parsed.parts, hparse] at hdecl
  rw [hparse]
  exact hdecls.hasExtents Scope.initial_bounded (Subtree.mem_decls hdecl)

/-! ## What becomes of an array -/

theorem TypeFault.arrayBase_ne_arraySize (name : String) (base ty : Ty) :
    (arrayBase name base).ty ≠ (arraySize name ty).ty := by
  intro h
  have hchars : ("Array " ++ name ++ " has invalid base type " ++ base.text ++ ".").toList =
      ("Array " ++ name ++ " of type " ++ ty.text ++ " is too large.").toList :=
    congrArg String.toList (Ty.error.inj h)
  simp only [String.toList_append, List.append_assoc] at hchars
  have hrest := List.append_cancel_left (List.append_cancel_left hchars)
  have hbase : " has invalid base type ".toList = ' ' :: 'h' :: "as invalid base type ".toList := by
    decide
  have hsize : " of type ".toList = ' ' :: 'o' :: "f type ".toList := by
    decide
  rw [hbase, hsize, List.cons_append, List.cons_append, List.cons_append, List.cons_append] at hrest
  exact absurd (List.cons.inj (List.cons.inj hrest).2).1 (by decide)

theorem Symbol.arrayTy_cases {symbol : Symbol} {element : String} {extents : List Nat}
    (herror : symbol.isError = false)
    (hty : symbol.ty = Parser.arrayType (Ty.ofName element) extents) :
    ((Ty.ofName element).isScalar ∧ (arrayBytes extents < Word.count ∧ ¬ HidesOversized extents) ∧
      symbol.arrayTy = symbol.ty) ∨
    ((Ty.ofName element).isScalar ∧ ¬ (arrayBytes extents < Word.count ∧ ¬ HidesOversized extents) ∧
      symbol.arrayTy = (TypeFault.arraySize symbol.name symbol.ty).ty) ∨
    ((Ty.ofName element).isScalar = false ∧
      symbol.arrayTy = (TypeFault.arrayBase symbol.name symbol.ty.innermost).ty) := by
  have hinnermost : symbol.ty.innermost = Ty.ofName element := by
    rw [hty, Ty.arrayType_innermost, Ty.ofName_innermost]
  have hsize := Ty.arrayType_size?_isSome element extents
  rw [← hty] at hsize
  cases hscalar : (Ty.ofName element).isScalar with
  | false =>
    refine .inr (.inr ⟨rfl, ?_⟩)
    simp [arrayTy, herror, hinnermost, hscalar]
  | true =>
    rw [hscalar] at hsize
    by_cases hfits : arrayBytes extents < Word.count ∧ ¬ HidesOversized extents
    · have hsome := hsize.2 ⟨rfl, hfits⟩
      exact .inl ⟨rfl, hfits, arrayTy_eq (hinnermost ▸ hscalar) hsome⟩
    · have hnone : symbol.ty.size?.isNone := by
        rw [← Option.not_isSome, Bool.not_eq_true']
        exact Bool.eq_false_iff.2 fun hsome => hfits (hsize.1 hsome).2
      refine .inr (.inl ⟨rfl, hfits, ?_⟩)
      simp [arrayTy, herror, hinnermost, hscalar, hnone]

section

variable {symbol : Symbol} {element : String} {extents : List Nat}
  (herror : symbol.isError = false) (hne : extents ≠ [])
  (hty : symbol.ty = Parser.arrayType (Ty.ofName element) extents)

include herror hne hty

theorem Symbol.arrayTy_eq_ty_iff :
    symbol.arrayTy = symbol.ty ↔ (Ty.ofName element).isScalar ∧
      arrayBytes extents < Word.count ∧ ¬ HidesOversized extents := by
  have hsound : symbol.ty.isError = false := hty ▸ Parser.isError_arrayType hne
  rcases arrayTy_cases herror hty with ⟨hscalar, hfits, h⟩ | ⟨_, hfits, h⟩ | ⟨hscalar, h⟩
  · exact iff_of_true h ⟨hscalar, hfits⟩
  · refine iff_of_false (fun hown => ?_) fun hall => hfits hall.2
    rw [← hown, h] at hsound
    cases hsound
  · refine iff_of_false (fun hown => ?_) fun hall => ?_
    · rw [← hown, h] at hsound
      cases hsound
    · exact absurd hall.1 (by simp [hscalar])

theorem Symbol.arrayTy_eq_arraySize_iff :
    symbol.arrayTy = (TypeFault.arraySize symbol.name symbol.ty).ty ↔
      (Ty.ofName element).isScalar ∧
        (Word.count ≤ arrayBytes extents ∨ HidesOversized extents) := by
  have hsound : symbol.ty.isError = false := hty ▸ Parser.isError_arrayType hne
  rw [← not_fits_iff]
  rcases arrayTy_cases herror hty with ⟨_, hfits, h⟩ | ⟨hscalar, hfits, h⟩ | ⟨hscalar, h⟩
  · refine iff_of_false (fun hlarge => ?_) fun hall => hall.2 hfits
    rw [← h, hlarge] at hsound
    cases hsound
  · exact iff_of_true h ⟨hscalar, hfits⟩
  · refine iff_of_false (fun hlarge => ?_) fun hall => ?_
    · exact TypeFault.arrayBase_ne_arraySize _ _ _ (h.symm.trans hlarge)
    · exact absurd hall.1 (by simp [hscalar])

end

def Subtree.array? : Subtree → Option VarDecl
  | decl (.array d) => some d
  | _ => none

namespace Parsed

def arrays (parsed : Parsed) : List VarDecl :=
  parsed.parts.filterMap Subtree.array?

section

variable (parsed : Parsed) (entry : String) (decl : VarDecl)

structure AcceptsArray : Prop where
  recorded : parsed.recorded entry (.decl (.array decl)) = some (parsed.symbols.get decl.symbol).ty
  unreported : ∀ d, (Subtree.decl (.array decl), d) ∉ parsed.reports entry

def ReportsTooLarge : Prop :=
  (Subtree.decl (.array decl), Diagnostic.mistyped decl.node.pos
    (TypeFault.arraySize (parsed.symbols.get decl.symbol).name
      (parsed.symbols.get decl.symbol).ty).message) ∈ parsed.reports entry

structure SizesArray (element : String) (extents : List Nat) : Prop where
  declared : decl.HasExtents parsed.symbols element extents
  accepted : parsed.AcceptsArray entry decl ↔
    (Ty.ofName element).isScalar ∧ arrayBytes extents < Word.count ∧ ¬ HidesOversized extents
  size : parsed.AcceptsArray entry decl →
    (parsed.symbols.get decl.symbol).ty.size? = some (arrayBytes extents)
  tooLarge : parsed.ReportsTooLarge entry decl ↔
    (Ty.ofName element).isScalar ∧ (Word.count ≤ arrayBytes extents ∨ HidesOversized extents)

end

variable {parsed : Parsed} {entry : String} {decl : VarDecl}

theorem mem_parts_of_mem_arrays (h : decl ∈ parsed.arrays) :
    Subtree.decl (.array decl) ∈ parsed.parts := by
  obtain ⟨part, hpart, harray⟩ := List.mem_filterMap.1 h
  cases part with
  | decl d =>
    cases d with
    | array =>
      cases harray
      exact hpart
    | _ => cases harray
  | _ => cases harray

theorem recorded_array (entry : String) (hids : (parsed.parts.map Subtree.id).Pairwise (· < ·))
    (hdecl : Subtree.decl (.array decl) ∈ parsed.parts) :
    parsed.recorded entry (.decl (.array decl)) =
      some (parsed.symbols.get decl.symbol).arrayTy := by
  obtain ⟨promise, hrecorded⟩ := exists_entry hids entry hdecl
  rw [hrecorded]
  exact congrArg some TypeEntry.declared_ty

theorem mem_reports_array (hids : (parsed.parts.map Subtree.id).Pairwise (· < ·))
    (haccounted : parsed.Accounted) (hdecl : Subtree.decl (.array decl) ∈ parsed.parts)
    (herror : (parsed.symbols.get decl.symbol).isError = false) {d : Diagnostic} :
    (Subtree.decl (.array decl), d) ∈ parsed.reports entry ↔
      ∃ message, (parsed.symbols.get decl.symbol).arrayTy = .error message ∧
        d = .mistyped decl.node.pos message := by
  have hrecorded := recorded_array entry hids hdecl
  rw [mem_reports hids haccounted]
  constructor
  · rintro ⟨_, message, horigin, rfl⟩
    exact ⟨message, Option.some.inj (hrecorded.symm.trans horigin.recorded), rfl⟩
  · rintro ⟨message, hty, rfl⟩
    refine ⟨hdecl, message, ⟨hty ▸ hrecorded, rfl, ?_, rfl⟩, rfl⟩
    intro id hid
    cases hid
    exact herror

theorem acceptsArray_iff (entry : String) (hids : (parsed.parts.map Subtree.id).Pairwise (· < ·))
    (haccounted : parsed.Accounted) (hdecl : Subtree.decl (.array decl) ∈ parsed.parts)
    (herror : (parsed.symbols.get decl.symbol).isError = false)
    (hsound : (parsed.symbols.get decl.symbol).ty.isError = false) :
    parsed.AcceptsArray entry decl ↔
      (parsed.symbols.get decl.symbol).arrayTy = (parsed.symbols.get decl.symbol).ty := by
  have hrecorded := recorded_array entry hids hdecl
  constructor
  · intro h
    exact Option.some.inj (hrecorded.symm.trans h.recorded)
  · intro h
    refine ⟨hrecorded.trans (congrArg some h), fun d hd => ?_⟩
    obtain ⟨message, hty, _⟩ := (mem_reports_array hids haccounted hdecl herror).1 hd
    rw [← h, hty] at hsound
    cases hsound

theorem reportsTooLarge_iff (hids : (parsed.parts.map Subtree.id).Pairwise (· < ·))
    (haccounted : parsed.Accounted) (hdecl : Subtree.decl (.array decl) ∈ parsed.parts)
    (herror : (parsed.symbols.get decl.symbol).isError = false) :
    parsed.ReportsTooLarge entry decl ↔ (parsed.symbols.get decl.symbol).arrayTy =
      (TypeFault.arraySize (parsed.symbols.get decl.symbol).name
        (parsed.symbols.get decl.symbol).ty).ty := by
  unfold ReportsTooLarge
  rw [mem_reports_array hids haccounted hdecl herror]
  constructor
  · rintro ⟨message, hty, hd⟩
    rw [hty, ← (Diagnostic.mistyped.inj hd).2]
    rfl
  · intro h
    exact ⟨_, h, rfl⟩

end Parsed

/-- An array is too large if the bytes of its scalars do not fit in a word. It is also too large if it
has no scalars, but an array inside an extent of zero does not fit. -/
theorem array_too_large_iff {σ : Type} [TokenStream σ] (stream : σ) (entry : String)
    (h : (parse stream).tree.isError = false) (decl : VarDecl) (hdecl : decl ∈ (parse stream).arrays)
    (herror : ((parse stream).symbols.get decl.symbol).isError = false) :
    ((parse stream).reports entry).map Prod.snd = ((parse stream).checked entry).log ∧
    ∃ element extents, (parse stream).SizesArray entry decl element extents ∧
      (HidesOversized extents → arrayBytes extents = 0) := by
  have hids := parse_parts_ids h
  have haccounted := parse_accounts h
  have hpart := Parsed.mem_parts_of_mem_arrays hdecl
  obtain ⟨element, extents, hextents⟩ := parse_hasExtents h hpart
  have hty := hextents.ty herror
  have hsound : ((parse stream).symbols.get decl.symbol).ty.isError = false :=
    hty ▸ Parser.isError_arrayType hextents.ne_nil
  have haccepts := Parsed.acceptsArray_iff entry hids haccounted hpart herror hsound
  have haccepted := haccepts.trans (Symbol.arrayTy_eq_ty_iff herror hextents.ne_nil hty)
  refine ⟨Parsed.map_reports _ entry, element, extents, ⟨hextents, haccepted, ?_, ?_⟩,
    HidesOversized.arrayBytes_eq_zero⟩
  · intro haccepts
    obtain ⟨hscalar, hfits⟩ := haccepted.1 haccepts
    rw [hty, Ty.arrayType_size?]
    exact ⟨hscalar, rfl, (forall_suffix_fits_iff extents).2 hfits⟩
  · rw [Parsed.reportsTooLarge_iff hids haccounted hpart herror]
    exact Symbol.arrayTy_eq_arraySize_iff herror hextents.ne_nil hty

def firstDecl : VarDecl :=
  ⟨⟨0, Position.start⟩, Scope.initial.symbols.length⟩

/-- An array whose innermost extent is zero is accepted, whatever is around it. -/
theorem array_of_empty_arrays_sized :
    ((parseText "array a : int[4294967295][0];").tree.isError = false ∧
      firstDecl ∈ (parseText "array a : int[4294967295][0];").arrays ∧
      ((parseText "array a : int[4294967295][0];").symbols.get firstDecl.symbol).isError = false ∧
      ((parseText "array a : int[4294967295][0];").checked "main").log = []) ∧
    ∃ element extents,
      (parseText "array a : int[4294967295][0];").SizesArray "main" firstDecl element extents := by
  have hread : (parseText "array a : int[4294967295][0];").tree.isError = false ∧
      firstDecl ∈ (parseText "array a : int[4294967295][0];").arrays ∧
      ((parseText "array a : int[4294967295][0];").symbols.get firstDecl.symbol).isError = false ∧
      ((parseText "array a : int[4294967295][0];").checked "main").log = [] := by
    decide +kernel
  obtain ⟨_, element, extents, hsizes, _⟩ := array_too_large_iff
    (Scanner.ofText "array a : int[4294967295][0];") "main" hread.1 firstDecl hread.2.1 hread.2.2.1
  exact ⟨hread, element, extents, hsizes⟩

/-- The same extents the other way round are too large, though the array has no elements. -/
theorem empty_array_reported_too_large :
    (parseText "array a : int[0][4294967295];").tree.isError = false ∧
      firstDecl ∈ (parseText "array a : int[0][4294967295];").arrays ∧
      ((parseText "array a : int[0][4294967295];").symbols.get firstDecl.symbol) =
        ⟨"a", Parser.arrayType .int [0, 4294967295], .array, ⟨1, 7⟩⟩ ∧
      arrayBytes [0, 4294967295] < Word.count ∧
      ((parseText "array a : int[0][4294967295];").checked "main").log =
        [.mistyped Position.start
          "Array a of type array[0,array[4294967295,int]] is too large."] := by
  decide +kernel

end MipsCompiler
