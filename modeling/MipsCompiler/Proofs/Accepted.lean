import MipsCompiler.Compilation
import MipsCompiler.Proofs.Parsing.Numbering
import MipsCompiler.Proofs.Typing.Check

set_option autoImplicit false

/-!
# Accepted programs

What parsing and checking without a diagnostic establish, as far as lowering depends on it: names are
resolved, declarations are well typed, and the type of every expression is entered in the table.
-/

namespace MipsCompiler

theorem Expr.entry_ty (symbols : SymbolTable) (e : Expr) : (e.entry symbols).ty = e.ty symbols := by
  cases e <;> rfl

theorem Phrase.entry_mem {symbols : SymbolTable} (phrase : Phrase) :
    ∀ e ∈ phrase.subexprs, e.entry symbols ∈ phrase.entries symbols := by
  induction phrase using Phrase.induct with
  | literal | address => exact List.forall_mem_singleton.2 List.mem_cons_self
  | deref node operand ih =>
    refine List.forall_mem_cons.2 ⟨List.mem_append_right _ List.mem_cons_self, ?_⟩
    exact fun e he => List.mem_append_left _ (ih e he)
  | index node base offset ihbase ihoffset =>
    refine List.forall_mem_cons.2 ⟨List.mem_append_right _ List.mem_cons_self, ?_⟩
    refine List.forall_mem_append.2 ⟨fun e he => ?_, fun e he => ?_⟩
    · exact List.mem_append_left _ (List.mem_append_left _ (ihbase e he))
    · exact List.mem_append_left _ (List.mem_append_right _ (ihoffset e he))
  | binary node op left right ihleft ihright =>
    refine List.forall_mem_cons.2 ⟨List.mem_append_right _ List.mem_cons_self, ?_⟩
    refine List.forall_mem_append.2 ⟨fun e he => ?_, fun e he => ?_⟩
    · exact List.mem_append_left _ (List.mem_append_left _ (ihleft e he))
    · exact List.mem_append_left _ (List.mem_append_right _ (ihright e he))
  | not node operand ih =>
    refine List.forall_mem_cons.2 ⟨List.mem_append_right _ List.mem_cons_self, ?_⟩
    exact fun e he => List.mem_append_left _ (ih e he)
  | call node callee args ih =>
    refine List.forall_mem_cons.2 ⟨List.mem_append_right _ List.mem_cons_self, ?_⟩
    exact fun e he => List.mem_append_left _ (ih e he)
  | nil => exact fun _ h => absurd h List.not_mem_nil
  | cons e es ih ihs =>
    refine List.forall_mem_append.2 ⟨fun e he => ?_, fun e he => ?_⟩
    · exact List.mem_append_left _ (ih e he)
    · exact List.mem_append_right _ (ihs e he)

theorem Expr.entry_mem {symbols : SymbolTable} {e e' : Expr} (h : e' ∈ e.subexprs) :
    e'.entry symbols ∈ e.entries symbols :=
  Phrase.entry_mem (.expr e) e' h

theorem StmtPhrase.entry_mem {promise : Promise} (phrase : StmtPhrase) :
    ∀ e ∈ phrase.exprs, e.entry promise.symbols ∈ phrase.entries promise := by
  induction phrase using StmtPhrase.induct with
  | var | nil => exact fun _ h => absurd h List.not_mem_nil
  | call node callee args => exact Phrase.entry_mem (.expr (.call node callee args))
  | assign node target source =>
    refine List.forall_mem_append.2 ⟨fun e he => ?_, fun e he => ?_⟩
    · exact List.mem_append_left _ (List.mem_append_left _ (Expr.entry_mem he))
    · exact List.mem_append_left _ (List.mem_append_right _ (Expr.entry_mem he))
  | branch node condition thenBlock elseBlock ihthen ihelse =>
    refine List.forall_mem_append.2 ⟨List.forall_mem_append.2 ⟨fun e he => ?_, fun e he => ?_⟩,
      fun e he => ?_⟩
    · exact List.mem_append_left _ (List.mem_append_left _ (List.mem_append_left _
        (Expr.entry_mem he)))
    · exact List.mem_append_left _ (List.mem_append_left _ (List.mem_append_right _ (ihthen e he)))
    · exact List.mem_append_left _ (List.mem_append_right _ (ihelse e he))
  | loop node condition body ih =>
    refine List.forall_mem_append.2 ⟨fun e he => ?_, fun e he => ?_⟩
    · exact List.mem_append_left _ (List.mem_append_left _ (Expr.entry_mem he))
    · exact List.mem_append_left _ (List.mem_append_right _ (ih e he))
  | ret node value => exact fun e he => List.mem_append_left _ (Expr.entry_mem he)
  | block node stmts ih => exact fun e he => List.mem_append_left _ (ih e he)
  | cons s ss ih ihs =>
    refine List.forall_mem_append.2 ⟨fun e he => ?_, fun e he => ?_⟩
    · exact List.mem_append_left _ (ih e he)
    · exact List.mem_append_right _ (ihs e he)

structure Accepted (env : Environment) (isName : String → Prop) (decls : List Decl) : Prop where
  builtins : Scope.initial.symbols <+: env.symbols
  resolved : Scoped env.symbols isName Scope.initial.current.ids decls
  typed : Typed env.symbols env.entry Scope.initial.current.ids decls
  entered : ∀ definition, .func definition ∈ decls → ∀ e ∈ definition.body.exprs,
    env.types.get? e.node.id = some (e.ty env.symbols)

theorem Scope.initial_declarable : ∀ id ∈ initial.current.ids,
    id < initial.symbols.length ∧ (initial.symbols.get id).ty.isDeclarable := by
  decide

theorem Scope.initial_unsized : ∀ id ∈ initial.current.ids,
    id < initial.symbols.length ∧ (initial.symbols.get id).ty.size? = none := by
  decide

def Environment.ofStream {σ : Type} [TokenStream σ] (stream : σ) (entry : String) : Environment :=
  ⟨(parse stream).symbols, (check (parse stream).symbols entry (parse stream).tree).types, entry⟩

theorem accepted_of_clean {σ : Type} [TokenStream σ] {stream : σ} {entry : String}
    (hparse : (parse stream).log = [])
    (hcheck : (check (parse stream).symbols entry (parse stream).tree).log = [])
    {isName : String → Prop}
    (hnames : ∀ later, TokenStream.Ahead stream later →
      (TokenStream.peek later).kind = .identifier → isName (TokenStream.peek later).lexeme) :
    ∃ node decls, (parse stream).tree = .program node decls ∧
      Accepted (Environment.ofStream stream entry) isName decls := by
  obtain ⟨node, decls, htree, hbuiltins, hscoped⟩ := parse_scoped hparse hnames
  have hsilent := Silent.of_filterMap hcheck
  have hentered : ∀ x ∈ (parse stream).tree.entries (parse stream).symbols entry,
      (Environment.ofStream stream entry).types.get? x.id = some x.ty :=
    fun x hx => check_get? (parse_numbers (parse_isError_of_clean hparse)).nodup hx
  rw [htree] at hsilent hentered
  have hreach : ∀ id ∈ Scope.initial.current.ids,
      ((parse stream).symbols.get id).ty.isDeclarable := by
    intro id hid
    obtain ⟨hbound, hdeclarable⟩ := Scope.initial_declarable id hid
    rw [SymbolTable.get_of_prefix hbuiltins hbound]
    exact hdeclarable
  refine ⟨node, decls, htree, hbuiltins, hscoped,
    hscoped.typed hreach (Silent.append.1 hsilent).1, ?_⟩
  intro definition hdefinition e he
  have hbody : e.entry (parse stream).symbols ∈
      definition.body.entries (definition.promise (parse stream).symbols) :=
    StmtPhrase.entry_mem (.block definition.body) e he
  have hmem := hentered _ (List.mem_append_left _ (List.mem_flatMap.2
    ⟨.func definition, hdefinition, List.mem_append_left _ hbody⟩))
  rw [Expr.entry_id, Expr.entry_ty] at hmem
  exact hmem

section

variable {σ : Type} [TokenStream σ] {stream : σ} {options : Options}

theorem compile_ok {compiled : Compiled} :
    compile stream options = .ok compiled ↔
      (parse stream).log = [] ∧
        (check (parse stream).symbols options.entry (parse stream).tree).log = [] ∧
        compiled.nodeCount = (parse stream).nodeCount ∧
        ((options.checkOnly = true ∧ compiled.assembly = none) ∨
          options.checkOnly = false ∧ ∃ program,
            (Environment.ofStream stream options.entry).lower (parse stream).tree = .ok program ∧
              compiled.assembly = some program.text) := by
  obtain ⟨assembly, count⟩ := compiled
  unfold compile Environment.ofStream
  cases hparse : (parse stream).log with
  | cons => simp [hparse]
  | nil =>
    cases hcheck : (check (parse stream).symbols options.entry (parse stream).tree).log with
    | cons => simp [hparse, hcheck]
    | nil =>
      cases options.checkOnly with
      | true => simp [hparse, hcheck, eq_comm, and_comm]
      | false =>
        cases hlower : (Environment.mk (parse stream).symbols _ options.entry).lower
          (parse stream).tree with
        | ok program => simp [hparse, hcheck, hlower, eq_comm, and_comm]
        | error fault => simp [hparse, hcheck, hlower]

theorem compile_fault {fault : Fault} (h : compile stream options = .error (.lower fault)) :
    (parse stream).log = [] ∧
      (check (parse stream).symbols options.entry (parse stream).tree).log = [] ∧
      (Environment.ofStream stream options.entry).lower (parse stream).tree = .error fault := by
  unfold compile at h
  unfold Environment.ofStream
  cases hparse : (parse stream).log with
  | cons => simp [hparse] at h
  | nil =>
    cases hcheck : (check (parse stream).symbols options.entry (parse stream).tree).log with
    | cons => simp [hparse, hcheck] at h
    | nil =>
      cases hchecked : options.checkOnly with
      | true => simp [hparse, hcheck, hchecked] at h
      | false =>
        cases hlower : (Environment.mk _ _ _).lower (parse stream).tree with
        | ok program => simp [hparse, hcheck, hchecked, hlower] at h
        | error other => simpa [hparse, hcheck, hchecked, hlower] using h

end

end MipsCompiler
