import MipsCompiler.Proofs.Parsing.Accounting
import MipsCompiler.Proofs.Parsing.Invariant
import MipsCompiler.Proofs.Typing.Judgement

set_option autoImplicit false

/-!
# Errors in declared types

A declared type may contain errors, also inside of an array or of a function. They all come from the
declarations: an annotation names no type, or the name that is declared or used is refused. So none
has the wording of a rule of the type system.
-/

namespace MipsCompiler

/-- There is an error with this message in the type. -/
inductive Ty.Contains (message : String) : Ty → Prop
  | here : Contains message (.error message)
  | element {extent : Nat} {base : Ty} : Contains message base → Contains message (.array extent base)
  | target {base : Ty} : Contains message base → Contains message (.address base)
  | param {params : List Ty} {param result : Ty} :
      param ∈ params → Contains message param → Contains message (.func params result)
  | result {params : List Ty} {result : Ty} :
      Contains message result → Contains message (.func params result)

/-- The messages of the errors that declarations make. An index without a symbol stands for an error
that says nothing. -/
inductive DeclaredError : String → Prop
  | unknown (name : String) : DeclaredError (TypeFault.unknownName name).message
  | redeclared (pos : Position) (name scopes : String) :
      DeclaredError (Diagnostic.redeclared pos name scopes).line
  | unresolved (pos : Position) (name scopes : String) :
      DeclaredError (Diagnostic.unresolved pos name scopes).line
  | absent : DeclaredError ""

/-! ## Wording -/

theorem head?_toList_foldl {s : String} {c : Char} (h : s.toList.head? = some c)
    (pieces : List String) : (pieces.foldl (· ++ ·) s).toList.head? = some c := by
  induction pieces generalizing s with
  | nil => exact h
  | cons piece pieces ih =>
    refine ih ?_
    rw [String.toList_append, List.head?_append, h]
    rfl

theorem DeclaredError.head? {message : String} (h : DeclaredError message) :
    message.toList.head? ≠ some 'C' := by
  cases h with
  | unknown name =>
    have hhead : (TypeFault.unknownName name).message.toList.head? = some 'U' :=
      head?_toList_foldl (by decide : "Unknown type: ".toList.head? = some 'U') [name, "."]
    rw [hhead]
    decide
  | redeclared pos name scopes =>
    have hhead : (Diagnostic.redeclared pos name scopes).line.toList.head? = some 'D' :=
      head?_toList_foldl (by decide : "DeclareSymbolError".toList.head? = some 'D')
        ["(", pos.text, ")[", name ++ " already exists.", "]"]
    rw [hhead]
    decide
  | unresolved pos name scopes =>
    have hhead : (Diagnostic.unresolved pos name scopes).line.toList.head? = some 'R' :=
      head?_toList_foldl (by decide : "ResolveSymbolError".toList.head? = some 'R')
        ["(", pos.text, ")[", "Could not find " ++ name ++ ".", "]"]
    rw [hhead]
    decide
  | absent => decide

/-! ## Types -/

namespace Ty

/-- All errors in the type are made by declarations. -/
def ErrorsDeclared (t : Ty) : Prop :=
  ∀ message, t.Contains message → DeclaredError message

theorem contains_arrayType {base : Ty} {message : String} (extents : List Nat) :
    (Parser.arrayType base extents).Contains message ↔ base.Contains message := by
  induction extents with
  | nil => exact Iff.rfl
  | cons extent extents ih =>
    refine Iff.trans ⟨fun h => ?_, fun h => .element h⟩ ih
    cases h with
    | element h => exact h

theorem size?_of_contains {t : Ty} {message : String} (h : t.Contains message) : t.size? = none := by
  induction h with
  | element _ ih => rw [size?, ih]
  | _ => rfl

theorem not_contains_of_isDeclarable {t : Ty} {message : String} (h : t.isDeclarable) :
    ¬ t.Contains message := by
  have hscalar {u : Ty} (hu : u.isScalar) : ¬ u.Contains message := by
    intro hinner
    cases (size?_of_isScalar hu).symm.trans (size?_of_contains hinner)
  intro hcontains
  cases t with
  | func params result =>
    obtain ⟨hparams, hresult⟩ := Bool.and_eq_true_iff.1 h
    cases hcontains with
    | param hparam hinner => exact hscalar (List.all_eq_true.1 hparams _ hparam) hinner
    | result hinner =>
      cases hvoid : result.isVoid with
      | false => exact hscalar (isScalar_of_isResult hresult hvoid) hinner
      | true => cases hinner <;> cases hvoid
  | _ =>
    rw [isDeclarable, size?_of_contains hcontains] at h
    · cases h
    · exact fun _ _ => Ty.noConfusion

theorem errorsDeclared_error {message : String} (h : DeclaredError message) :
    (error message).ErrorsDeclared := by
  intro other hother
  cases hother
  exact h

theorem errorsDeclared_ofName (name : String) : (ofName name).ErrorsDeclared := by
  unfold ofName
  repeat' split
  · intro message h; cases h
  · intro message h; cases h
  · intro message h; cases h
  · intro message h; cases h
  · exact errorsDeclared_error (.unknown name)

theorem errorsDeclared_func {params : List Ty} {result : Ty}
    (hparams : ∀ param ∈ params, param.ErrorsDeclared) (hresult : result.ErrorsDeclared) :
    (func params result).ErrorsDeclared := by
  intro message h
  cases h with
  | param hparam h => exact hparams _ hparam message h
  | result h => exact hresult message h

end Ty

/-! ## Tables -/

namespace SymbolTable

def ErrorsDeclared (symbols : SymbolTable) : Prop :=
  ∀ symbol ∈ symbols, symbol.ty.ErrorsDeclared

variable {symbols : SymbolTable}

theorem ErrorsDeclared.get (h : symbols.ErrorsDeclared) (id : SymbolId) :
    (symbols.get id).ty.ErrorsDeclared := by
  unfold SymbolTable.get
  rw [List.getD_eq_getElem?_getD]
  cases hsymbol : symbols[id]? with
  | none => exact Ty.errorsDeclared_error .absent
  | some symbol => exact h symbol (List.mem_of_getElem? hsymbol)

theorem ErrorsDeclared.concat (h : symbols.ErrorsDeclared) {symbol : Symbol}
    (hsymbol : symbol.ty.ErrorsDeclared) : ErrorsDeclared (symbols ++ [symbol]) := by
  intro other hother
  rcases List.mem_append.1 hother with hother | hother
  · exact h other hother
  · rw [List.mem_singleton.1 hother]
    exact hsymbol

theorem ErrorsDeclared.retype (h : symbols.ErrorsDeclared) {ty : Ty} (hty : ty.ErrorsDeclared)
    (id : SymbolId) : ErrorsDeclared (symbols.retype id ty) := by
  have hretyped (symbol : Symbol) (hsymbol : symbol.ty.ErrorsDeclared) :
      (symbol.retype ty).ty.ErrorsDeclared := by
    unfold Symbol.retype
    split
    · exact hsymbol
    · exact hty
  unfold SymbolTable.retype
  induction symbols generalizing id with
  | nil => rwa [List.modify_nil]
  | cons symbol symbols ih =>
    obtain ⟨hfirst, hrest⟩ := List.forall_mem_cons.1 h
    cases id with
    | zero => exact List.forall_mem_cons.2 ⟨hretyped symbol hfirst, hrest⟩
    | succ id => exact List.forall_mem_cons.2 ⟨hfirst, ih hrest id⟩

end SymbolTable

namespace Scope

variable {s : Scope}

theorem declare_errorsDeclared (h : s.symbols.ErrorsDeclared) {symbol : Symbol}
    (hsymbol : symbol.ty.ErrorsDeclared) : (s.declare symbol).scope.symbols.ErrorsDeclared := by
  unfold declare
  split
  · exact h.concat hsymbol
  · exact h.concat (Ty.errorsDeclared_error (.redeclared _ _ _))

theorem resolve_errorsDeclared (h : s.symbols.ErrorsDeclared) (name : String) (pos : Position) :
    (s.resolve name pos).scope.symbols.ErrorsDeclared := by
  unfold resolve
  split
  · exact h
  · exact h.concat (Ty.errorsDeclared_error (.unresolved _ _ _))

theorem initial_errorsDeclared : Scope.initial.symbols.ErrorsDeclared := by
  have hbuiltin : ∀ symbol ∈ Scope.initial.symbols, symbol.ty.isDeclarable := by
    decide
  intro symbol hsymbol message h
  exact absurd h (Ty.not_contains_of_isDeclarable (hbuiltin symbol hsymbol))

end Scope

theorem ParseState.Assigns.errorsDeclared {σ : Type} {s : ParseState σ} {ty : Ty} (h : s.Assigns ty)
    (hs : s.scope.symbols.ErrorsDeclared) : ty.ErrorsDeclared := by
  cases h with
  | named name => exact Ty.errorsDeclared_ofName name
  | array name outermost inner =>
    exact fun message h => Ty.errorsDeclared_ofName name message ((Ty.contains_arrayType _).1 h)
  | func params name =>
    refine Ty.errorsDeclared_func (fun param hparam => ?_) (Ty.errorsDeclared_ofName name)
    obtain ⟨id, _, rfl⟩ := List.mem_map.1 hparam
    exact hs.get id

def ParseInvariant.errorsDeclared (σ : Type) [TokenStream σ] : ParseInvariant σ where
  holds s := s.scope.symbols.ErrorsDeclared
  givenUp _ s := s.scope.symbols.ErrorsDeclared
  advance h := h
  numbered h := h
  entered h := h
  exited {s} h := by
    change SymbolTable.ErrorsDeclared s.scope.exit.symbols
    rw [Scope.exit_symbols]
    exact h
  declare h _ _ := Scope.declare_errorsDeclared h fun message hmessage => by cases hmessage
  resolve h _ := Scope.resolve_errorsDeclared h _ _
  retype h hty id := h.retype (hty.errorsDeclared h) id
  refuse h _ := h
  outOfRange h := h

theorem parse_errorsDeclared {σ : Type} [TokenStream σ] (stream : σ) :
    (parse stream).symbols.ErrorsDeclared := by
  have hstart : (ParseInvariant.errorsDeclared σ).holds (.start stream) :=
    Scope.initial_errorsDeclared
  rcases (ParseInvariant.errorsDeclared σ).parse_cases hstart with
    ⟨_, _, s, hs, hparse⟩ | ⟨_, s, hs, hparse⟩
  · rw [hparse]
    exact hs
  · rw [hparse]
    exact hs

end MipsCompiler
