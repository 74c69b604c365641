import MipsCompiler.Proofs.Labels.Emitted
import MipsCompiler.Proofs.Lowering.Totality

set_option autoImplicit false

/-!
# Labels of a program

All labels of a program are distinct and every reference is to one of them. Labels are issued by one
supply, which keeps them apart as long as no requested name ends in a numeral; and the names are kept
apart from those of the library by their first and last parts.
-/

namespace MipsCompiler

def DataLine.label? : DataLine → Option String
  | space label _ => some label
  | verbatim _ => none

namespace Segments

def dataLabels (segments : Segments) : List String :=
  segments.data.filterMap DataLine.label?

theorem dataLabels_append (a b : Segments) :
    (a.append b).dataLabels = a.dataLabels ++ b.dataLabels :=
  List.filterMap_append

end Segments

/-- The labels in what the declarations `decls` are lowered to. -/
structure Laid (env : Environment) (decls : List Decl) (storage : Storage) (s : LowerState)
    (segments : Segments) (storage' : Storage) (t : LowerState) : Prop where
  counts : ∀ l, segments.dataLabels.count l + segments.code.labels.count l +
    s.labels.issued.count l = t.labels.issued.count l
  requests : ∃ names, t.labels.requested = names ++ s.labels.requested ∧
    ∀ name ∈ names, ∃ decl ∈ decls, decl.Requests env name
  globals : ∀ slot ∈ storage'.globals, slot ∈ storage.globals ∨ slot.2 ∈ segments.dataLabels
  targets : ∀ line ∈ segments.code, ∀ l, line.target? = some l → l ∈ segments.code.labels
  calls : ∀ line ∈ segments.code, ∀ l, line.called? = some l →
    ∃ definition, .func definition ∈ decls ∧ ∃ id ∈ definition.body.callees,
      l = (env.symbols.get id).callLabel env.entry
  loads : ∀ line ∈ segments.code, ∀ l, line.loaded? = some l →
    (∃ slot ∈ storage.globals, slot.2 = l) ∨ l ∈ segments.dataLabels
  generated : segments.code.all Line.isGenerated
  reserved : ∀ line ∈ segments.data, line.label?.isSome

namespace Laid

variable {env : Environment} {decls decls' : List Decl} {storage storage' storage'' : Storage}
  {s t u : LowerState} {a b : Segments}

theorem nil : Laid env [] storage s Segments.empty storage s :=
  ⟨fun l => by simp [Segments.empty, Segments.dataLabels], ⟨[], rfl, by simp⟩,
    fun _ h => .inl h, by simp [Segments.empty], by simp [Segments.empty], by simp [Segments.empty],
    rfl, by simp [Segments.empty]⟩

theorem append (ha : Laid env decls storage s a storage' t)
    (hb : Laid env decls' storage' t b storage'' u) :
    Laid env (decls ++ decls') storage s (a.append b) storage'' u := by
  have hcode : (a.append b).code = a.code ++ b.code := rfl
  refine ⟨?_, ?_, ?_, ?_, ?_, ?_, ?_, List.forall_mem_append.2 ⟨ha.reserved, hb.reserved⟩⟩
  · intro l
    have hcounta := ha.counts l
    have hcountb := hb.counts l
    rw [Segments.dataLabels_append, hcode, Code.labels_append, List.count_append,
      List.count_append]
    omega
  · obtain ⟨names, hnames, hdecls⟩ := ha.requests
    obtain ⟨names', hnames', hdecls'⟩ := hb.requests
    refine ⟨names' ++ names, by rw [hnames', hnames, List.append_assoc], ?_⟩
    refine List.forall_mem_append.2 ⟨fun name hname => ?_, fun name hname => ?_⟩
    · obtain ⟨decl, hdecl, hrequest⟩ := hdecls' name hname
      exact ⟨decl, List.mem_append_right _ hdecl, hrequest⟩
    · obtain ⟨decl, hdecl, hrequest⟩ := hdecls name hname
      exact ⟨decl, List.mem_append_left _ hdecl, hrequest⟩
  · intro slot hslot
    rw [Segments.dataLabels_append]
    rcases hb.globals slot hslot with hslot | hmem
    · exact (ha.globals slot hslot).imp_right (List.mem_append_left _)
    · exact .inr (List.mem_append_right _ hmem)
  · rw [hcode, Code.labels_append]
    refine List.forall_mem_append.2 ⟨fun line hline l hl => ?_, fun line hline l hl => ?_⟩
    · exact List.mem_append_left _ (ha.targets line hline l hl)
    · exact List.mem_append_right _ (hb.targets line hline l hl)
  · rw [hcode]
    refine List.forall_mem_append.2 ⟨fun line hline l hl => ?_, fun line hline l hl => ?_⟩
    · obtain ⟨definition, hmem, hid⟩ := ha.calls line hline l hl
      exact ⟨definition, List.mem_append_left _ hmem, hid⟩
    · obtain ⟨definition, hmem, hid⟩ := hb.calls line hline l hl
      exact ⟨definition, List.mem_append_right _ hmem, hid⟩
  · rw [hcode, Segments.dataLabels_append]
    refine List.forall_mem_append.2 ⟨fun line hline l hl => ?_, fun line hline l hl => ?_⟩
    · exact (ha.loads line hline l hl).imp_right (List.mem_append_left _)
    · rcases hb.loads line hline l hl with ⟨slot, hslot, rfl⟩ | hmem
      · rcases ha.globals slot hslot with hslot | hmem
        · exact .inl ⟨slot, hslot, rfl⟩
        · exact .inr (List.mem_append_left _ hmem)
      · exact .inr (List.mem_append_right _ hmem)
  · rw [hcode, List.all_append, ha.generated, hb.generated]
    rfl

theorem of_requested (h : Laid env decls storage LowerState.initial a storage' t) :
    ∀ name ∈ t.labels.requested, ∃ decl ∈ decls, decl.Requests env name := by
  obtain ⟨names, hnames, hrequests⟩ := h.requests
  have hnil : t.labels.requested = names := hnames.trans (List.append_nil names)
  rwa [hnil]

end Laid

section

variable {env : Environment} {storage storage' : Storage} {s t : LowerState} {segments : Segments}

theorem Laid.of_global {decl : VarDecl} {entry : Decl} {line : DataLine}
    (hrequest : entry.Requests env (env.symbols.get decl.symbol).dataLabel)
    (h : env.reserveGlobal storage decl s = .ok (line, storage') t) :
    Laid env [entry] storage s ⟨[line], []⟩ storage' t := by
  obtain ⟨bytes, _, rfl, rfl, rfl⟩ := Environment.reserveGlobal_ok.1 h
  refine ⟨?_, ⟨[_], rfl, ?_⟩, ?_, by simp, by simp, by simp, rfl, by simp [DataLine.label?]⟩
  · intro l
    simp only [LowerState.issued_request, Segments.dataLabels, List.filterMap_cons,
      List.filterMap_nil, DataLine.label?, Code.labels_nil, List.count_cons, List.count_nil]
    omega
  · exact List.forall_mem_singleton.2 ⟨entry, List.mem_cons_self, hrequest⟩
  · intro slot hslot
    rcases List.mem_cons.1 hslot with rfl | hslot
    · exact .inr List.mem_cons_self
    · exact .inl hslot

theorem Code.prologue_silent (locals : Nat) : ∀ line ∈ prologue locals, line.Silent := by
  simp only [prologue, List.forall_mem_cons]
  exact ⟨⟨_, rfl, rfl, rfl⟩, ⟨_, rfl, rfl, rfl⟩, ⟨_, rfl, rfl, rfl⟩, ⟨_, rfl, rfl, rfl⟩,
    ⟨_, rfl, rfl, rfl⟩, by simp⟩

theorem Environment.ending_silent (symbol : Symbol) (locals : Nat) :
    ∀ line ∈ env.ending symbol locals, line.Silent := by
  have hexit : ∀ line ∈ Code.exit, line.Silent := by
    simp only [Code.exit, List.forall_mem_cons]
    exact ⟨⟨_, rfl, rfl, rfl⟩, ⟨_, rfl, rfl, rfl⟩, by simp⟩
  have hretrieve : ∀ line ∈ Code.retrieve .v0, line.Silent := by
    simp only [Code.retrieve, List.forall_mem_cons]
    exact ⟨⟨_, rfl, rfl, rfl⟩, ⟨_, rfl, rfl, rfl⟩, by simp⟩
  have hepilogue : ∀ line ∈ Code.epilogue locals, line.Silent := by
    simp only [Code.epilogue, List.forall_mem_cons]
    exact ⟨⟨_, rfl, rfl, rfl⟩, ⟨_, rfl, rfl, rfl⟩, ⟨_, rfl, rfl, rfl⟩, ⟨_, rfl, rfl, rfl⟩,
      ⟨_, rfl, rfl, rfl⟩, by simp⟩
  unfold ending
  split
  · exact hexit
  · refine List.forall_mem_append.2 ⟨?_, hepilogue⟩
    split
    · exact hretrieve
    · exact fun _ hline => absurd hline List.not_mem_nil

theorem Storage.mem_globals_of_static {id : SymbolId} {l : String}
    (h : storage.locate? id = some (.static l)) : (id, l) ∈ storage.globals := by
  unfold locate? at h
  split at h
  · nomatch h
  · obtain ⟨label, hlookup, hlabel⟩ := Option.map_eq_some_iff.1 h
    obtain rfl : label = l := Location.static.inj hlabel
    obtain ⟨before, after, hglobals, _⟩ := List.lookup_eq_some_iff.1 hlookup
    rw [hglobals]
    exact List.mem_append_right _ List.mem_cons_self

namespace FunctionSite

variable (f : FunctionSite env)

theorem labels_lines (code : Code) :
    (f.opening ++ code ++ f.closing).labels = f.start :: (code.labels ++ [f.finish]) := by
  have hopening := Code.labels_of_silent (Code.prologue_silent f.frame.localBytes)
  have hclosing := Code.labels_of_silent (env.ending_silent f.symbol f.frame.localBytes)
  simp only [opening, closing, Code.labels_append, Code.labels_label, hopening, hclosing,
    List.cons_append, List.nil_append]

theorem calls_lines (code : Code) :
    (f.opening ++ code ++ f.closing).filterMap Line.called? = code.filterMap Line.called? := by
  have hsilent {lines : Code} (h : ∀ line ∈ lines, line.Silent) :
      lines.filterMap Line.called? = [] := by
    refine List.filterMap_eq_nil_iff.2 fun line hline => ?_
    obtain ⟨_, _, hnone, _⟩ := h line hline
    exact (Line.operand?_eq_none.1 hnone).2.1
  have hprologue := hsilent (Code.prologue_silent f.frame.localBytes)
  have hopening : f.opening.filterMap Line.called? = [] := hprologue
  have hending := hsilent (env.ending_silent f.symbol f.frame.localBytes)
  have hclosing : f.closing.filterMap Line.called? = [] := hending
  rw [List.filterMap_append, List.filterMap_append, hopening, hclosing, List.nil_append,
    List.append_nil]

theorem mem_lines {code : Code} {line : Line} (h : line ∈ f.opening ++ code ++ f.closing) :
    line ∈ code ∨ line = .label f.start ∨ line = .label f.finish ∨ line.Silent := by
  rcases List.mem_append.1 h with h | h
  · rcases List.mem_append.1 h with h | h
    · rcases List.mem_cons.1 h with rfl | h
      · exact .inr (.inl rfl)
      · exact .inr (.inr (.inr (Code.prologue_silent _ line h)))
    · exact .inl h
  · rcases List.mem_cons.1 h with rfl | h
    · exact .inr (.inr (.inl rfl))
    · exact .inr (.inr (.inr (env.ending_silent _ _ line h)))

theorem mem_code_of_operand {code : Code} {line : Line}
    (h : line ∈ f.opening ++ code ++ f.closing)
    (hoperand : line.operand? ≠ none) : line ∈ code := by
  rcases f.mem_lines h with h | rfl | rfl | ⟨_, _, hnone, _⟩
  · exact h
  · exact absurd rfl hoperand
  · exact absurd rfl hoperand
  · exact absurd hnone hoperand

end FunctionSite

theorem Laid.of_function {definition : FuncDef} {code : Code}
    (h : env.lowerFunction storage definition s = .ok code t) :
    Laid env [.func definition] storage s ⟨[], code⟩ storage t := by
  obtain ⟨f, inner, rfl, rfl, rfl, _, hbody, rfl⟩ := FunctionSite.lowerFunction_ok.1 h
  obtain ⟨_, marked, hemits, rfl⟩ := @StmtPhrase.emits _ _ _ _ (.block f.definition.body) hbody
  have hlabelled := hemits.labelled
  refine ⟨?_, ?_, fun _ hslot => .inl hslot, ?_, ?_, ?_, ?_,
    fun _ hline => absurd hline List.not_mem_nil⟩
  · intro l
    have hcounts := hlabelled.counts l
    have hinside : f.inside.labels.issued = f.finish :: f.start :: f.state.labels.issued := rfl
    rw [hinside, List.count_cons, List.count_cons] at hcounts
    rw [f.labels_lines, List.count_cons, List.count_append, List.count_singleton]
    simp only [Segments.dataLabels, List.filterMap_nil, List.count_nil]
    omega
  · obtain ⟨names, hnames, hinner⟩ := hlabelled.requests
    refine ⟨names ++ [f.start ++ ".end", f.symbol.codeLabel env.entry], ?_, ?_⟩
    · rw [hnames, List.append_assoc]
      rfl
    · refine List.forall_mem_append.2 ⟨fun name hname => ?_, fun name hname => ?_⟩
      · obtain ⟨suffix, hsuffix, rfl⟩ := hinner name hname
        exact ⟨_, List.mem_cons_self, .inner hsuffix⟩
      · refine ⟨_, List.mem_cons_self, ?_⟩
        rcases List.mem_cons.1 hname with rfl | hname
        · exact .finish
        · exact List.mem_singleton.1 hname ▸ .start
  · intro line hline l hl
    rw [f.labels_lines]
    rcases hlabelled.targets line (f.mem_code_of_operand hline (by simp [Line.operand?, hl])) l hl with h | rfl
    · exact List.mem_cons_of_mem _ (List.mem_append_left _ h)
    · exact List.mem_cons_of_mem _ (List.mem_append_right _ List.mem_cons_self)
  · intro line hline l hl
    have hmem := List.mem_filterMap.2 ⟨line, f.mem_code_of_operand hline (by simp [Line.operand?, hl]), hl⟩
    rw [hlabelled.calls] at hmem
    obtain ⟨id, hid, rfl⟩ := List.mem_map.1 hmem
    exact ⟨f.definition, List.mem_cons_self, id, hid, rfl⟩
  · intro line hline l hl
    obtain ⟨id, hid⟩ := hlabelled.loads line (f.mem_code_of_operand hline (by simp [Line.operand?, hl])) l hl
    have hmem : (id, l) ∈ f.body.storage.globals := Storage.mem_globals_of_static hid
    exact .inl ⟨(id, l), hmem, rfl⟩
  · refine List.all_eq_true.2 fun line hline => ?_
    rcases f.mem_lines hline with h | rfl | rfl | ⟨_, rfl, _, hgenerated⟩
    · exact List.all_eq_true.1 hlabelled.generated line h
    · rfl
    · rfl
    · exact hgenerated

theorem Laid.of_lowerOnto {decls : List Decl}
    (h : env.lowerOnto storage decls s = .ok (segments, storage') t) :
    Laid env decls storage s segments storage' t := by
  induction decls generalizing storage s segments with
  | nil =>
    obtain ⟨rfl, rfl, rfl⟩ := Environment.lowerOnto_nil_ok.1 h
    exact .nil
  | cons decl decls ih =>
    obtain ⟨first, storage₁, u, rest, hdecl, hrest, rfl⟩ := Environment.lowerOnto_cons_ok.1 h
    have hfirst : Laid env [decl] storage s first storage₁ u := by
      cases decl with
      | var decl =>
        obtain ⟨line, hline, rfl⟩ := Environment.lowerDecl_var_ok.1 hdecl
        exact .of_global .var hline
      | array decl =>
        obtain ⟨line, hline, rfl⟩ := Environment.lowerDecl_var_ok.1 hdecl
        exact .of_global .array hline
      | func definition =>
        obtain ⟨code, hcode, rfl, rfl⟩ := Environment.lowerDecl_func_ok.1 hdecl
        exact .of_function hcode
    exact hfirst.append (ih hrest)

end

theorem Scoped.names {symbols : SymbolTable} {isName : String → Prop} {reach : List SymbolId}
    {decls : List Decl} (h : Scoped symbols isName reach decls) :
    (∀ decl ∈ decls, isName (symbols.get decl.symbol).name ∧
      ∀ id ∈ reach, (symbols.get id).name ≠ (symbols.get decl.symbol).name) ∧
    decls.Pairwise fun a b => (symbols.get a.symbol).name ≠ (symbols.get b.symbol).name := by
  induction h with
  | nil => exact ⟨fun _ hdecl => absurd hdecl List.not_mem_nil, .nil⟩
  | cons hname hfresh _ _ ih =>
    obtain ⟨ihnames, ihdistinct⟩ := ih
    refine ⟨List.forall_mem_cons.2 ⟨⟨hname, hfresh⟩, fun d hd => ?_⟩, .cons (fun d hd => ?_) ihdistinct⟩
    · exact ⟨(ihnames d hd).1, fun id hid => (ihnames d hd).2 id (List.mem_cons_of_mem _ hid)⟩
    · exact (ihnames d hd).2 _ List.mem_cons_self

theorem Scoped.kind_of_func {symbols : SymbolTable} {isName : String → Prop}
    {reach : List SymbolId} {decls : List Decl} (h : Scoped symbols isName reach decls)
    {definition : FuncDef} (hmem : .func definition ∈ decls) :
    (symbols.get definition.symbol).kind = .func := by
  induction h with
  | nil => exact absurd hmem List.not_mem_nil
  | cons _ _ hscoped _ ih =>
    rcases List.mem_cons.1 hmem with rfl | hmem
    · exact hscoped.kind
    · exact ih hmem

theorem Typed.func_of_mem {symbols : SymbolTable} {entry : String} {reach : List SymbolId}
    {decls : List Decl} (h : Typed symbols entry reach decls) {decl : Decl} (hdecl : decl ∈ decls)
    {params : List Ty} {result : Ty}
    (hty : (symbols.get decl.symbol).ty = .func params result) :
    ∃ definition, decl = .func definition := by
  induction h with
  | nil => exact absurd hdecl List.not_mem_nil
  | var hscalar _ ih =>
    rcases List.mem_cons.1 hdecl with rfl | hdecl
    · rw [Decl.symbol] at hty
      rw [hty] at hscalar
      nomatch hscalar
    · exact ih hdecl
  | array hsize _ ih =>
    rcases List.mem_cons.1 hdecl with rfl | hdecl
    · rw [Decl.symbol] at hty
      rw [hty] at hsize
      nomatch hsize
    · exact ih hdecl
  | func _ _ ih =>
    rcases List.mem_cons.1 hdecl with rfl | hdecl
    · exact ⟨_, rfl⟩
    · exact ih hdecl

theorem Scope.exists_of_builtin : ∀ routine ∈ builtins, ∃ id ∈ initial.current.ids,
    id < initial.symbols.length ∧ (initial.symbols.get id).name = routine.1 := by
  decide

theorem Scope.initial_routines : ∀ id ∈ initial.current.ids, id < initial.symbols.length ∧
    (initial.symbols.get id).isBuiltin ∧
    ∃ lines ∈ [Library.printBool, Library.printFloat, Library.printInt, Library.println,
      Library.readFloat, Library.readInt],
      lines.head?.bind RoutineLine.label? =
        some ("func." ++ (initial.symbols.get id).name) := by
  decide

theorem Library.mem_labels_of_head : ∀ lines ∈ [printBool, printFloat, printInt, println, readFloat,
    readInt], ∀ l, lines.head?.bind RoutineLine.label? = some l →
      l ∈ routines.filterMap RoutineLine.label? := by
  decide

theorem Library.operands_defined : ∀ l ∈ routines.filterMap RoutineLine.operand?, l ∈ labels := by
  decide

theorem Library.not_numbered : ∀ l ∈ labels, LabelSupply.isNumbered l = false := by
  decide

theorem Library.labels_nodup : labels.Nodup := by
  decide

namespace Program

/-- The labels that the text of a program defines, in order. -/
def definedLabels (program : Program) : List String :=
  program.data.filterMap DataLine.label? ++ Library.labels ++ program.code.labels

def labelOperands (program : Program) : List String :=
  Library.routines.filterMap RoutineLine.operand? ++ program.code.filterMap Line.operand?

end Program

/-- Where the code of a symbol starts: at the label of its own function, or at that of a routine of the
library. -/
inductive StartsAt (env : Environment) (decls : List Decl) : SymbolId → String → Prop
  | function (f : CompiledFunction env decls) : StartsAt env decls f.definition.symbol f.start
  | routine {id : SymbolId} {lines : List RoutineLine} :
      (env.symbols.get id).isBuiltin →
      lines ∈ [Library.printBool, Library.printFloat, Library.printInt, Library.println,
        Library.readFloat, Library.readInt] →
      lines.head?.bind RoutineLine.label? = some ("func." ++ (env.symbols.get id).name) →
      StartsAt env decls id ("func." ++ (env.symbols.get id).name)

namespace Accepted

variable {env : Environment} {node : Node} {decls : List Decl} {program : Program}

theorem isName (h : Accepted env IsName decls) {decl : Decl} (hdecl : decl ∈ decls) :
    IsName (env.symbols.get decl.symbol).name :=
  (h.resolved.names.1 decl hdecl).1

theorem ne_builtin (h : Accepted env IsName decls) {decl : Decl} (hdecl : decl ∈ decls) :
    ∀ routine ∈ Scope.builtins, routine.1 ≠ (env.symbols.get decl.symbol).name := by
  intro routine hroutine
  obtain ⟨id, hid, hbound, hname⟩ := Scope.exists_of_builtin routine hroutine
  have hne := (h.resolved.names.1 decl hdecl).2 id hid
  rwa [SymbolTable.get_of_prefix h.builtins hbound, hname] at hne

theorem start_eq (h : Accepted env IsName decls) (f : CompiledFunction env decls) :
    f.start = f.symbol.codeLabel env.entry := by
  refine LabelSupply.request_of_new fun hmem => ?_
  obtain ⟨decl, hdecl, hrequest⟩ := (Laid.of_lowerOnto f.reached).of_requested _ hmem
  have hbefore : decl ∈ decls := f.split ▸ List.mem_append_left _ hdecl
  have hdistinct := h.resolved.names.2
  rw [f.split] at hdistinct
  have hne := (List.pairwise_append.1 hdistinct).2.2 decl hdecl _ List.mem_cons_self
  exact hrequest.ne_codeLabel (h.isName hbefore) (h.isName f.mem) hne rfl

theorem issued (h : Accepted env IsName decls)
    (hlower : env.lower (.program node decls) = .ok program) :
    program.labels.issued.Nodup ∧ ∀ l ∈ program.labels.issued, l ∉ Library.labels := by
  obtain ⟨segments, storage, t, hrun, rfl⟩ := Environment.lower_ok.1 hlower
  have hrequested := (Laid.of_lowerOnto hrun).of_requested
  constructor
  · refine LabelSupply.issuedFor_nodup fun name hname => ?_
    obtain ⟨decl, hdecl, hrequest⟩ := hrequested name hname
    exact hrequest.not_numbered (h.isName hdecl)
  · intro l hl hlibrary
    obtain ⟨name, n, hname, _, rfl⟩ := LabelSupply.exists_of_mem_issuedFor hl
    obtain ⟨decl, hdecl, hrequest⟩ := hrequested name hname
    cases n with
    | zero => exact hrequest.not_library (h.isName hdecl) (h.ne_builtin hdecl) hlibrary
    | succ n =>
      have hnumbered := LabelSupply.isNumbered_of_parts (LabelSupply.parts_label_succ name n)
      rw [Library.not_numbered _ hlibrary] at hnumbered
      nomatch hnumbered

theorem definedLabels_nodup (h : Accepted env IsName decls)
    (hlower : env.lower (.program node decls) = .ok program) : program.definedLabels.Nodup := by
  obtain ⟨hnodup, hlibrary⟩ := h.issued hlower
  obtain ⟨segments, storage, t, hrun, rfl⟩ := Environment.lower_ok.1 hlower
  rw [List.nodup_iff_count] at hnodup ⊢
  intro l
  have hcounts := (Laid.of_lowerOnto hrun).counts l
  have hissued : t.labels.issued.count l ≤ 1 := hnodup l
  have hlib := List.nodup_iff_count.1 Library.labels_nodup l
  have hinitial : LowerState.initial.labels.issued.count l = 0 := rfl
  simp only [Program.definedLabels, List.count_append]
  simp only [Segments.dataLabels] at hcounts
  -- a label of the library is not issued, and what is issued is defined once
  by_cases hmem : l ∈ Library.labels
  · have hzero : t.labels.issued.count l = 0 :=
      List.count_eq_zero.2 fun hl => hlibrary l hl hmem
    omega
  · have hzero := List.count_eq_zero.2 hmem
    omega

theorem code_labels_nodup (h : Accepted env IsName decls)
    (hlower : env.lower (.program node decls) = .ok program) : program.code.labels.Nodup :=
  (h.definedLabels_nodup hlower).sublist (List.sublist_append_right _ _)

/-- A function calls functions of the program and routines of the library. -/
theorem callee_cases (h : Accepted env IsName decls) (f : CompiledFunction env decls)
    {id : SymbolId} (hid : id ∈ f.definition.body.callees) :
    (∃ definition, .func definition ∈ decls ∧ definition.symbol = id) ∨
      id ∈ Scope.initial.current.ids := by
  obtain ⟨result, htyped, _⟩ := h.function f
  obtain ⟨node, args, hcall⟩ := StmtPhrase.exists_call (.block f.definition.body) hid
  obtain ⟨ty, hcall⟩ := htyped.body.calls hcall
  cases hcall with
  | call hreach hcallee _ _ =>
    have hnot (hscalar : (env.symbols.get id).ty.isScalar) : False := by
      rw [hcallee] at hscalar
      nomatch hscalar
    rcases List.mem_append.1 hreach with hparam | hreach
    · exact (hnot (htyped.params id hparam)).elim
    rcases List.mem_append.1 hreach with hlocal | hreach
    · exact (hnot (htyped.locals id hlocal)).elim
    rcases List.mem_cons.1 hreach with rfl | hreach
    · exact .inl ⟨f.definition, f.mem, rfl⟩
    refine (List.mem_append.1 hreach).imp_left fun hbefore => ?_
    obtain ⟨decl, hdecl, rfl⟩ := List.mem_map.1 (List.mem_reverse.1 hbefore)
    have hmem : decl ∈ decls := f.split ▸ List.mem_append_left _ hdecl
    obtain ⟨definition, rfl⟩ := h.typed.func_of_mem hmem hcallee
    exact ⟨definition, hmem, rfl⟩

theorem callLabel_eq (h : Accepted env IsName decls) (f : CompiledFunction env decls) :
    f.symbol.callLabel env.entry = f.start := by
  have hbuiltin : f.symbol.isBuiltin = false := by
    rw [Symbol.isBuiltin, FunctionSite.symbol, h.resolved.kind_of_func f.mem]
  exact (f.symbol.callLabel_eq env.entry hbuiltin).trans (h.start_eq f).symm

theorem callee_starts (h : Accepted env IsName decls)
    (hlower : env.lower (.program node decls) = .ok program) (f : CompiledFunction env decls)
    {id : SymbolId} (hid : id ∈ f.definition.body.callees) :
    StartsAt env decls id ((env.symbols.get id).callLabel env.entry) := by
  rcases h.callee_cases f hid with ⟨definition, hmem, rfl⟩ | hid
  · obtain ⟨g, rfl⟩ := CompiledFunction.exists_of_lower hlower hmem
    exact h.callLabel_eq g ▸ .function g
  · obtain ⟨hbound, hbuiltin, lines, hlines, hstart⟩ := Scope.initial_routines id hid
    rw [← SymbolTable.get_of_prefix h.builtins hbound] at hbuiltin hstart
    have hlabel : (env.symbols.get id).callLabel env.entry =
        "func." ++ (env.symbols.get id).name := by
      simp [Symbol.callLabel, hbuiltin]
    rw [hlabel]
    exact .routine hbuiltin hlines hstart

theorem startsAt_defined (hlower : env.lower (.program node decls) = .ok program) {id : SymbolId}
    {l : String} (h : StartsAt env decls id l) : l ∈ program.definedLabels := by
  cases h with
  | function f =>
    obtain ⟨rest, _, _, _, rfl⟩ := f.placed hlower
    refine List.mem_append_right _ ?_
    simp only [Code.labels_append, CompiledFunction.lines, f.labels_lines]
    simp
  | @routine id lines _ hlines hstart =>
    refine List.mem_append_left _ (List.mem_append_right _ (List.mem_append_right _ ?_))
    exact Library.mem_labels_of_head lines hlines _ hstart

theorem operands_defined (h : Accepted env IsName decls)
    (hlower : env.lower (.program node decls) = .ok program) :
    ∀ l ∈ program.labelOperands, l ∈ program.definedLabels := by
  obtain ⟨segments, storage, t, hrun, rfl⟩ := Environment.lower_ok.1 hlower
  have hlaid := Laid.of_lowerOnto hrun
  refine List.forall_mem_append.2 ⟨fun l hl => ?_, fun l hl => ?_⟩
  · exact List.mem_append_left _ (List.mem_append_right _ (Library.operands_defined l hl))
  obtain ⟨line, hline, hoperand⟩ := List.mem_filterMap.1 hl
  rw [Line.operand?, Option.or_eq_some_iff, Option.or_eq_some_iff] at hoperand
  rcases hoperand with htarget | ⟨_, hcalled | ⟨_, hloaded⟩⟩
  · exact List.mem_append_right _ (hlaid.targets line hline l htarget)
  · obtain ⟨definition, hmem, id, hid, rfl⟩ := hlaid.calls line hline l hcalled
    obtain ⟨f, rfl⟩ := CompiledFunction.exists_of_lower hlower hmem
    exact startsAt_defined hlower (h.callee_starts hlower f hid)
  · refine List.mem_append_left _ (List.mem_append_left _ ?_)
    refine (hlaid.loads line hline l hloaded).resolve_left ?_
    rintro ⟨_, hslot, _⟩
    exact absurd hslot List.not_mem_nil

end Accepted

def Decl.definition? : Decl → Option FuncDef
  | .func definition => some definition
  | _ => none

theorem Decl.func_mem {decls : List Decl} {definition : FuncDef}
    (h : definition ∈ decls.filterMap definition?) : .func definition ∈ decls := by
  obtain ⟨decl, hdecl, hfunc⟩ := List.mem_filterMap.1 h
  cases decl with
  | func other => exact Option.some.inj hfunc ▸ hdecl
  | _ => cases hfunc

def Tree.ofText (source : String) : Tree :=
  (parse (Scanner.ofText source)).tree

def Environment.ofText (source entry : String) : Environment :=
  .ofStream (Scanner.ofText source) entry

/-- A text that was compiled to assembly, with the number of nodes of its tree. -/
theorem compileText_ok {source : String} {options : Options} {text : String} {count : Nat}
    (h : compileText source options = .ok ⟨some text, count⟩) :
    ∃ node decls program, Tree.ofText source = .program node decls ∧
      Accepted (Environment.ofText source options.entry) IsName decls ∧
      (Environment.ofText source options.entry).lower (.program node decls) = .ok program ∧
      text = program.text ∧ (Tree.ofText source).postorder.length = count := by
  obtain ⟨hparse, hcheck, rfl, hassembly⟩ := compile_ok.1 h
  obtain ⟨node, decls, htree, haccepted⟩ := accepted_of_clean hparse hcheck
    fun _ => Scanner.isName_of_ahead
  rcases hassembly with ⟨_, hnone⟩ | ⟨_, program, hlower, htext⟩
  · nomatch hnone
  · have hcount := (parse_numbers (parse_isError_of_clean hparse)).1
    rw [Nat.zero_add] at hcount
    exact ⟨node, decls, program, htree, haccepted, htree ▸ hlower, Option.some.inj htext, hcount⟩

theorem compileText_of_clean {source entry : String}
    (h : (∀ n ∈ (parse (Scanner.ofText source)).tree.argCounts, n * wordBytes < Word.count) ∧
      (parse (Scanner.ofText source)).log = [] ∧
      (check (parse (Scanner.ofText source)).symbols entry
        (parse (Scanner.ofText source)).tree).log = []) :
    ∃ text count, compileText source ⟨entry, false⟩ = .ok ⟨some text, count⟩ ∧
      count = (parse (Scanner.ofText source)).nodeCount := by
  obtain ⟨text, htext⟩ := compile_of_clean h.1 h.2.1 h.2.2
  exact ⟨text, _, htext, rfl⟩

theorem generated_of_lower {env : Environment} {node : Node} {decls : List Decl}
    {program : Program} (h : env.lower (.program node decls) = .ok program) :
    program.code.all Line.isGenerated ∧ ∀ line ∈ program.data, line.label?.isSome := by
  obtain ⟨segments, storage, t, hrun, rfl⟩ := Environment.lower_ok.1 h
  exact ⟨(Laid.of_lowerOnto hrun).generated, (Laid.of_lowerOnto hrun).reserved⟩

/-- The labels of a compiled text are distinct, and those that its instructions name are among them.
Calls go to the start of what they call, and returns to the end of the function they stand in. -/
theorem labels_unique_and_closed {source : String} {options : Options} {text : String}
    {count : Nat} (h : compileText source options = .ok ⟨some text, count⟩) :
    ∃ (env : Environment) (decls : List Decl) (program : Program),
      env = .ofText source options.entry ∧ decls = (Tree.ofText source).decls ∧
      env.lower (Tree.ofText source) = .ok program ∧ text = program.text ∧
      (∀ line ∈ program.data, line.label?.isSome) ∧
      (∀ line ∈ program.code, line.isVerbatim = false) ∧
      program.definedLabels.Nodup ∧
      (∀ l ∈ program.labelOperands, l ∈ program.definedLabels) ∧
      (∀ line ∈ program.code, ∃ f : CompiledFunction env decls, line ∈ f.lines) ∧
      ∀ f : CompiledFunction env decls,
        f.lines.filterMap Line.called? = f.definition.body.callees.map (fun id =>
          (env.symbols.get id).callLabel env.entry) ∧
        (∀ id ∈ f.definition.body.callees,
          StartsAt env decls id ((env.symbols.get id).callLabel env.entry)) ∧
        ∀ node value, .ret node value ∈ f.definition.body.substmts → ∃ s code t,
          (Stmt.ret node value).lower f.body s = .ok code t ∧ code <:+: f.code ∧
            code.getLast? = some (.instr (.jump f.finish)) := by
  obtain ⟨node, decls, program, htree, haccepted, hlower, rfl, _⟩ := compileText_ok h
  obtain ⟨hgenerated, hreserved⟩ := generated_of_lower hlower
  rw [htree]
  generalize Environment.ofText source options.entry = env at haccepted hlower ⊢
  refine ⟨env, decls, program, rfl, rfl, hlower, rfl, hreserved,
    fun line hline => Line.isVerbatim_of_isGenerated (List.all_eq_true.1 hgenerated line hline),
    haccepted.definedLabels_nodup hlower, haccepted.operands_defined hlower,
    fun line hline => CompiledFunction.exists_of_mem_code hlower hline, fun f => ?_⟩
  obtain ⟨marked, hemits, hlines⟩ := f.emits
  refine ⟨?_, fun id hid => haccepted.callee_starts hlower f hid, fun node value hret => ?_⟩
  · rw [CompiledFunction.lines, f.calls_lines, ← hlines]
    exact hemits.labelled.calls
  · obtain ⟨s, code, t, hcode, hinfix⟩ := hemits.exists_infix hret rfl
    rw [hlines] at hinfix
    refine ⟨s, code, t, hcode, hinfix, ?_⟩
    obtain ⟨inner, _, _, rfl, _⟩ := Stmt.ret_straight hcode fun e _ => e.drops_true f.body
    exact List.getLast?_concat

/-- The end of the function and the data of the global ask for the same name. -/
def sharedName : String :=
  "var end : int; func next() : int \x7b return end + 1; \x7d " ++
    "func cruxdata() : void \x7b while true \x7b let end = ::next(); \x7d \x7d"

theorem sharedName_labels :
    ∃ text count program, compileText sharedName ⟨"cruxdata", false⟩ = .ok ⟨some text, count⟩ ∧
      (Environment.ofText sharedName "cruxdata").lower (Tree.ofText sharedName) = .ok program ∧
      text = program.text ∧ program.definedLabels.Nodup ∧
      ∀ l ∈ program.labelOperands, l ∈ program.definedLabels := by
  obtain ⟨text, count, h, _⟩ := @compileText_of_clean sharedName "cruxdata" (by decide +kernel)
  obtain ⟨env, decls, program, henv, _, hlower, htext, _, _, hnodup, hclosed, _⟩ :=
    labels_unique_and_closed h
  rw [henv] at hlower
  exact ⟨text, count, program, h, hlower, htext, hnodup, hclosed⟩

end MipsCompiler
