import MipsCompiler.Proofs.Parsing.Derivation

set_option autoImplicit false

/-!
# Names in parsed programs

When a parser logs nothing, every name it met was found and every name it declared was new. The
symbols that a function mentions are then those declared before it, its own, its parameters and its
locals. `Scoped` says so of a list of declarations.
-/

namespace MipsCompiler

namespace SymbolTable

variable {symbols table : SymbolTable} {id : SymbolId}

theorem get_of_prefix (h : symbols <+: table) (hid : id < symbols.length) :
    table.get id = symbols.get id := by
  obtain ⟨more, rfl⟩ := h
  simp [get, List.getElem?_append_left hid]

theorem get_of_append_prefix {symbol : Symbol} {more : SymbolTable}
    (h : symbols ++ symbol :: more <+: table) : table.get symbols.length = symbol := by
  obtain ⟨rest, rfl⟩ := h
  simp [get]

theorem retype_last (symbols : SymbolTable) (symbol : Symbol) (ty : Ty) :
    retype (symbols ++ [symbol]) symbols.length ty = symbols ++ [symbol.retype ty] := by
  induction symbols with
  | nil => rfl
  | cons first symbols ih => exact congrArg (first :: ·) ih

theorem retype_append_left (more : SymbolTable) (hid : id < symbols.length) (ty : Ty) :
    retype (symbols ++ more) id ty = retype symbols id ty ++ more := by
  induction symbols generalizing id with
  | nil => exact absurd hid (Nat.not_lt_zero id)
  | cons first symbols ih =>
    cases id with
    | zero => rfl
    | succ id => exact congrArg (first :: ·) (ih (Nat.lt_of_succ_lt_succ hid))

theorem get_retype_of_ne {other : SymbolId} (h : other ≠ id) (symbols : SymbolTable) (ty : Ty) :
    get (retype symbols id ty) other = symbols.get other := by
  simp [get, retype, List.getElem?_modify_ne _ _ h.symm]

theorem length_retype (symbols : SymbolTable) (id : SymbolId) (ty : Ty) :
    (retype symbols id ty).length = symbols.length :=
  List.length_modify _ _ _

end SymbolTable

namespace Frame

/-- The symbols that a frame binds or has bound. -/
def ids (frame : Frame) : List SymbolId :=
  frame.bindings.map Prod.snd

theorem mem_ids_of_find? {frame : Frame} {name : String} {id : SymbolId}
    (h : frame.find? name = some id) : id ∈ frame.ids := by
  obtain ⟨before, after, hbindings, _⟩ := List.lookup_eq_some_iff.1 h
  simp [ids, hbindings]

theorem ne_of_find?_none {frame : Frame} {name : String} (h : frame.find? name = none)
    {binding : String × SymbolId} (hmem : binding ∈ frame.bindings) : binding.1 ≠ name := by
  have hne := List.lookup_eq_none_iff.1 h binding hmem
  rintro rfl
  simp at hne

end Frame

namespace Scope

def inReach (s : Scope) : List SymbolId :=
  s.frames.flatMap Frame.ids

theorem mem_inReach_of_find? {s : Scope} {name : String} {id : SymbolId}
    (h : s.find? name = some id) : id ∈ s.inReach := by
  obtain ⟨frame, hframe, hfind⟩ := List.exists_of_findSome?_eq_some h
  exact List.mem_flatMap.2 ⟨frame, hframe, Frame.mem_ids_of_find? hfind⟩

theorem bind_inReach (s : Scope) (symbol : Symbol) :
    (s.bind symbol).inReach = s.symbols.length :: s.inReach :=
  rfl

theorem bind_retype (s : Scope) (symbol : Symbol) (ty : Ty) (h : symbol.isError = false) :
    (s.bind symbol).retype s.symbols.length ty = s.bind { symbol with ty := ty } := by
  have htable := SymbolTable.retype_last s.symbols symbol ty
  simp only [Symbol.retype, h] at htable
  exact congrArg (fun symbols => { (s.bind symbol) with symbols := symbols }) htable

theorem declare_accepted {s : Scope} {symbol : Symbol} (h : (s.declare symbol).refusal = none) :
    s.current.find? symbol.name = none ∧
      s.declare symbol = ⟨s.bind symbol, s.symbols.length, none⟩ := by
  unfold declare at h ⊢
  cases hfind : s.current.find? symbol.name with
  | none => simp only [and_self]
  | some id => simp [hfind] at h

theorem resolve_accepted {s : Scope} {name : String} {pos : Position}
    (h : (s.resolve name pos).refusal = none) :
    ∃ id, s.find? name = some id ∧ s.resolve name pos = ⟨s, id, none⟩ := by
  unfold resolve at h ⊢
  cases hfind : s.find? name with
  | none => simp [hfind] at h
  | some id => exact ⟨id, rfl, rfl⟩

theorem initial_named : ∀ binding ∈ initial.current.bindings,
    binding.2 < initial.symbols.length ∧ (initial.symbols.get binding.2).name = binding.1 := by
  decide

/-- From `s` to `t`, symbols of one kind are made with annotated types, and what is in reach in the
end was in reach before or is one of them. -/
structure Declares (kind : SymbolKind) (s : Scope) (ids : List SymbolId) (t : Scope) : Prop where
  outer : t.outer = s.outer
  reach : ∀ id ∈ t.inReach, id ∈ s.inReach ∨ id ∈ ids
  made : ∃ new : List Symbol, t.symbols = s.symbols ++ new ∧
    ids = List.range' s.symbols.length new.length ∧
    ∀ symbol ∈ new, symbol.kind = kind ∧ ∃ name, symbol.ty = Ty.ofName name

namespace Declares

variable {kind : SymbolKind} {s t u : Scope} {ids others : List SymbolId}

theorem refl : Declares kind s [] s :=
  ⟨rfl, fun _ h => .inl h, [], by simp⟩

theorem bind {symbol : Symbol} {name : String} (hkind : symbol.kind = kind)
    (hty : symbol.ty = Ty.ofName name) : Declares kind s [s.symbols.length] (s.bind symbol) where
  outer := rfl
  reach id h := by
    rw [bind_inReach, List.mem_cons] at h
    exact h.symm.imp_right List.mem_singleton.2
  made := by
    refine ⟨[symbol], rfl, rfl, ?_⟩
    intro other hother
    rw [List.mem_singleton.1 hother]
    exact ⟨hkind, name, hty⟩

theorem trans (h : Declares kind s ids t) (h' : Declares kind t others u) :
    Declares kind s (ids ++ others) u where
  outer := h'.outer.trans h.outer
  reach id hid := by
    rw [List.mem_append]
    rcases h'.reach id hid with hold | hnew
    · exact (h.reach id hold).imp_right .inl
    · exact .inr (.inr hnew)
  made := by
    obtain ⟨new, hnew, hids, hall⟩ := h.made
    obtain ⟨new', hnew', hids', hall'⟩ := h'.made
    refine ⟨new ++ new', by rw [hnew', hnew, List.append_assoc], ?_, ?_⟩
    · rw [hids', hids, hnew, List.length_append, List.length_append, List.range'_append_1]
    · intro symbol hsymbol
      exact (List.mem_append.1 hsymbol).elim (hall symbol) (hall' symbol)

theorem exit (h : Declares kind s.enter ids t) : Declares kind s ids t.exit := by
  have hexit : t.exit = { s with symbols := t.symbols } := by
    rw [Scope.exit, h.outer]
    rfl
  rw [hexit]
  exact ⟨rfl, fun _ hid => .inl hid, h.made⟩

theorem retype (h : Declares kind s ids t) {id : SymbolId} (hid : id < s.symbols.length) (ty : Ty) :
    Declares kind (s.retype id ty) ids (t.retype id ty) := by
  refine ⟨h.outer, h.reach, ?_⟩
  obtain ⟨new, hnew, hids, hall⟩ := h.made
  refine ⟨new, ?_, ?_, hall⟩
  · change t.symbols.retype id ty = s.symbols.retype id ty ++ new
    rw [hnew, SymbolTable.retype_append_left new hid]
  · change ids = List.range' (s.symbols.retype id ty).length new.length
    rw [SymbolTable.length_retype, hids]

theorem retype_bind {symbol : Symbol} (hkind : symbol.isError = false)
    (h : Declares kind (s.bind symbol).enter ids t) (ty : Ty) :
    Declares kind (s.bind { symbol with ty := ty }).enter ids (t.retype s.symbols.length ty) := by
  have hnew : s.symbols.length < (s.bind symbol).enter.symbols.length := by
    simp [Scope.bind, Scope.enter]
  rw [← bind_retype s symbol ty hkind]
  exact h.retype hnew ty

theorem symbols_prefix (h : Declares kind s ids t) : s.symbols <+: t.symbols := by
  obtain ⟨new, hnew, _⟩ := h.made
  exact ⟨new, hnew.symm⟩

theorem mem_bounds (h : Declares kind s ids t) {id : SymbolId} (hid : id ∈ ids) :
    s.symbols.length ≤ id ∧ id < t.symbols.length := by
  obtain ⟨new, hnew, hids, _⟩ := h.made
  rw [hids, List.mem_range'_1] at hid
  rw [hnew, List.length_append]
  exact hid

theorem get (h : Declares kind s ids t) {table : SymbolTable} (htable : t.symbols <+: table)
    {id : SymbolId} (hid : id ∈ ids) :
    (table.get id).kind = kind ∧ ∃ name, (table.get id).ty = Ty.ofName name := by
  obtain ⟨new, hnew, hids, hall⟩ := h.made
  rw [hids, List.mem_range'_1] at hid
  have hlength : t.symbols.length = s.symbols.length + new.length := by
    rw [hnew, List.length_append]
  have hindex : id - s.symbols.length < new.length := Nat.sub_lt_left_of_lt_add hid.1 hid.2
  have hget : table.get id ∈ new := by
    rw [SymbolTable.get_of_prefix htable (hlength ▸ hid.2), hnew, SymbolTable.get,
      List.getD_eq_getElem?_getD, List.getElem?_append_right hid.1,
      List.getElem?_eq_getElem hindex]
    exact List.getElem_mem hindex
  exact hall _ hget

end Declares

end Scope

def Decl.symbol : Decl → SymbolId
  | .var decl => decl.symbol
  | .array decl => decl.symbol
  | .func definition => definition.symbol

/-- A function with the names in it resolved: what it mentions are its parameters, its locals, and
what is in reach of it. -/
structure FuncDef.Scoped (symbols : SymbolTable) (reach : List SymbolId) (definition : FuncDef) :
    Prop where
  kind : (symbols.get definition.symbol).kind = .func
  signature : ∃ result, (symbols.get definition.symbol).ty =
    .func (definition.params.map fun id => (symbols.get id).ty) (Ty.ofName result)
  params : ∀ id ∈ definition.params,
    (symbols.get id).kind = .param ∧ ∃ name, (symbols.get id).ty = Ty.ofName name
  locals : ∀ id ∈ definition.body.locals.map VarDecl.symbol, (symbols.get id).kind = .var
  formed : definition.body.isFormed
  mentions : ∀ id ∈ definition.body.mentions,
    id ∈ definition.params ∨ id ∈ definition.body.locals.map VarDecl.symbol ∨ id ∈ reach

def Decl.Scoped (symbols : SymbolTable) (reach : List SymbolId) : Decl → Prop
  | .var decl => (symbols.get decl.symbol).kind = .var
  | .array decl => (symbols.get decl.symbol).kind = .array
  | .func definition => definition.Scoped symbols reach

/-- Declarations in order, each in reach of itself and of the later ones, and each under a name that
nothing in reach of it has. -/
inductive Scoped (symbols : SymbolTable) (isName : String → Prop) :
    List SymbolId → List Decl → Prop
  | nil {reach : List SymbolId} : Scoped symbols isName reach []
  | cons {reach : List SymbolId} {decl : Decl} {decls : List Decl} :
      isName (symbols.get decl.symbol).name →
      (∀ id ∈ reach, (symbols.get id).name ≠ (symbols.get decl.symbol).name) →
      decl.Scoped symbols (decl.symbol :: reach) →
      Scoped symbols isName (decl.symbol :: reach) decls →
      Scoped symbols isName reach (decl :: decls)

namespace ParseState

variable {σ : Type} {s t : ParseState σ} {name : Token} {kind : SymbolKind} {id : SymbolId}

/-- From `s` to `t` nothing is declared and the symbols `ids` are found. -/
def Resolves (s : ParseState σ) (ids : List SymbolId) (t : ParseState σ) : Prop :=
  t.log = [] → s.log = [] ∧ t.scope = s.scope ∧ ∀ id ∈ ids, id ∈ s.scope.inReach

theorem Resolves.nil (hscope : t.scope = s.scope) (hlog : t.log = s.log) : Resolves s [] t :=
  fun h => ⟨hlog ▸ h, hscope, fun _ h => absurd h List.not_mem_nil⟩

theorem Resolves.append {u : ParseState σ} {ids others : List SymbolId} (h : Resolves s ids t)
    (h' : Resolves t others u) : Resolves s (ids ++ others) u := by
  intro hlog
  obtain ⟨hlog, hscope', hothers⟩ := h' hlog
  obtain ⟨hlog, hscope, hids⟩ := h hlog
  refine ⟨hlog, hscope'.trans hscope, ?_⟩
  intro id hid
  exact (List.mem_append.1 hid).elim (hids id) fun hid => hscope ▸ hothers id hid

theorem resolve_resolves (h : s.resolve name = (id, t)) : Resolves s [id] t := by
  intro hlog
  simp only [resolve, Parser.settle, Prod.mk.injEq] at h
  obtain ⟨rfl, rfl⟩ := h
  obtain ⟨hold, hrefusal⟩ := List.append_eq_nil_iff.1 hlog
  obtain ⟨id, hfind, hanswer⟩ := Scope.resolve_accepted (Option.toList_eq_nil_iff.1 hrefusal)
  rw [hanswer]
  refine ⟨hold, rfl, ?_⟩
  intro other hother
  exact List.mem_singleton.1 hother ▸ Scope.mem_inReach_of_find? hfind

/-- From `s` to `t` the variables `locals` are declared, and the symbols `ids` were in reach or are
among them. -/
def Introduces (s : ParseState σ) (locals ids : List SymbolId) (t : ParseState σ) : Prop :=
  t.log = [] → s.log = [] ∧ s.scope.Declares .var locals t.scope ∧
    ∀ id ∈ ids, id ∈ s.scope.inReach ∨ id ∈ locals

namespace Introduces

variable {u : ParseState σ} {locals moreLocals ids others : List SymbolId}

theorem of_resolves (h : Resolves s ids t) : Introduces s [] ids t := by
  intro hlog
  obtain ⟨hlog, hscope, hids⟩ := h hlog
  exact ⟨hlog, hscope ▸ .refl, fun id hid => .inl (hids id hid)⟩

theorem append (h : Introduces s locals ids t) (h' : Introduces t moreLocals others u) :
    Introduces s (locals ++ moreLocals) (ids ++ others) u := by
  intro hlog
  obtain ⟨hlog, hmore, hothers⟩ := h' hlog
  obtain ⟨hlog, hlocals, hids⟩ := h hlog
  refine ⟨hlog, hlocals.trans hmore, ?_⟩
  intro id hid
  rw [List.mem_append]
  rcases List.mem_append.1 hid with hid | hid
  · exact (hids id hid).imp_right .inl
  · rcases hothers id hid with hreach | hnew
    · exact (hlocals.reach id hreach).imp_right .inl
    · exact .inr (.inr hnew)

theorem block {ownScope : Bool} (h : Introduces (s.opened ownScope) locals ids t) :
    Introduces s locals ids (t.closed ownScope) := by
  cases ownScope with
  | false => exact h
  | true =>
    intro hlog
    obtain ⟨hlog, hlocals, hids⟩ := h hlog
    exact ⟨hlog, hlocals.exit, hids⟩

end Introduces

theorem declare_clean (h : s.declare name kind = (id, t)) (hlog : t.log = []) :
    s.log = [] ∧ s.scope.current.find? name.lexeme = none ∧ id = s.scope.symbols.length ∧
      t.scope = s.scope.bind ⟨name.lexeme, .void, kind, name.pos⟩ := by
  simp only [declare, Parser.settle, Prod.mk.injEq] at h
  obtain ⟨rfl, rfl⟩ := h
  obtain ⟨hold, hrefusal⟩ := List.append_eq_nil_iff.1 hlog
  obtain ⟨hfind, hanswer⟩ := Scope.declare_accepted (Option.toList_eq_nil_iff.1 hrefusal)
  rw [hanswer]
  exact ⟨hold, hfind, rfl, rfl⟩

end ParseState

def Phrase.isFormed (rule : Rule) : Phrase → Bool
  | .expr e =>
    match rule with
    | .designator => e.isPlace
    | _ => e.isValue
  | .args es => Expr.areValues es

namespace Parser

variable {σ : Type} [TokenStream σ] {s t : ParseState σ}

theorem Derives.formed {rule : Rule} {phrase : Phrase} (h : Derives rule s phrase t) :
    phrase.isFormed rule := by
  induction h with
  | literal => rfl
  | negation _ _ ih => exact ih
  | parenthesized _ _ _ ih => exact ih
  | load _ ih => exact ih
  | called _ ih => exact ih
  | @promoted s t tier e _ ih => cases tier <;> exact ih
  | @binary s t u tier op left right _ _ _ hleft hright =>
    have hvalues : left.isValue ∧ right.isValue := by
      cases tier <;> exact ⟨hleft, hright⟩
    exact Bool.and_eq_true_iff.2 hvalues
  | name => rfl
  | subscript _ _ _ _ hbase hoffset => exact Bool.and_eq_true_iff.2 ⟨hbase, hoffset⟩
  | call _ _ _ _ _ _ ih => exact ih
  | noArguments => rfl
  | arguments _ _ hfirst hrest => exact Bool.and_eq_true_iff.2 ⟨hfirst, hrest⟩
  | noMore => rfl
  | more _ _ _ hfirst hrest => exact Bool.and_eq_true_iff.2 ⟨hfirst, hrest⟩

theorem Derives.resolves {rule : Rule} {phrase : Phrase} (h : Derives rule s phrase t) :
    s.Resolves phrase.mentions t := by
  induction h with
  | literal => exact .nil rfl rfl
  | negation _ _ ih => exact ih
  | parenthesized _ _ _ ih => exact ih
  | load _ ih => exact ih
  | called _ ih => exact ih
  | promoted _ ih => exact ih
  | binary _ _ _ hleft hright => exact hleft.append hright
  | name _ hresolve =>
    have hname := ParseState.resolve_resolves hresolve
    exact hname
  | subscript _ _ _ _ hbase hoffset => exact hbase.append hoffset
  | call _ _ hresolve _ _ _ hargs => exact (ParseState.resolve_resolves hresolve).append hargs
  | noArguments => exact .nil rfl rfl
  | arguments _ _ hfirst hrest => exact hfirst.append hrest
  | noMore => exact .nil rfl rfl
  | more _ _ _ hfirst hrest => exact hfirst.append hrest

theorem Annotates.binds {kind : SymbolKind} {id : SymbolId} (h : Annotates kind s id t)
    (hkind : ∀ message, kind ≠ .error message) (hlog : t.log = []) :
    s.log = [] ∧ ∃ symbol name, symbol.kind = kind ∧ symbol.ty = Ty.ofName name ∧
      symbol.name = s.token.lexeme ∧ s.scope.current.find? symbol.name = none ∧
      id = s.scope.symbols.length ∧ t.scope = s.scope.bind symbol := by
  obtain @⟨t, _, _, hdeclare, _, _⟩ := h
  obtain ⟨hlog, hfind, hid, hscope⟩ := ParseState.declare_clean hdeclare hlog
  refine ⟨hlog, ⟨s.token.lexeme, Ty.ofName t.advance.token.lexeme, kind, s.token.pos⟩,
    t.advance.token.lexeme, rfl, rfl, rfl, hfind, hid, ?_⟩
  have herror : (Symbol.mk s.token.lexeme .void kind s.token.pos).isError = false := by
    cases kind with
    | error message => exact absurd rfl (hkind message)
    | _ => rfl
  change t.scope.retype id _ = _
  rw [hscope, hid]
  exact Scope.bind_retype s.scope _ _ herror

theorem Annotates.declares {kind : SymbolKind} {id : SymbolId} (h : Annotates kind s id t)
    (hkind : ∀ message, kind ≠ .error message) (hlog : t.log = []) :
    s.log = [] ∧ s.scope.Declares kind [id] t.scope := by
  obtain ⟨hlog, symbol, name, hkind, hty, _, _, rfl, hscope⟩ := h.binds hkind hlog
  have hbind := Scope.Declares.bind hkind hty (s := s.scope)
  exact ⟨hlog, hscope ▸ hbind⟩

theorem DerivesVar.introduces {decl : VarDecl} (h : DerivesVar s decl t) :
    s.Introduces [decl.symbol] [] t := by
  intro hlog
  obtain ⟨_, hname, _⟩ := h
  obtain ⟨hlog, hdeclares⟩ := hname.declares (fun _ h => nomatch h) hlog
  exact ⟨hlog, hdeclares, fun _ h => absurd h List.not_mem_nil⟩

theorem DerivesStmt.formed {rule : StmtRule} {phrase : StmtPhrase}
    (h : DerivesStmt rule s phrase t) : phrase.isFormed := by
  induction h with
  | var => rfl
  | call h _ => exact h.formed
  | assign _ htarget _ hsource _ => exact Bool.and_eq_true_iff.2 ⟨htarget.formed, hsource.formed⟩
  | ret _ hvalue _ => exact hvalue.formed
  | branch _ hcondition _ _ htaken hother =>
    exact Bool.and_eq_true_iff.2 ⟨Bool.and_eq_true_iff.2 ⟨hcondition.formed, htaken⟩, hother⟩
  | loop _ hcondition _ hbody => exact Bool.and_eq_true_iff.2 ⟨hcondition.formed, hbody⟩
  | block _ _ _ ih => exact ih
  | otherwise _ _ ih => exact ih
  | missing => rfl
  | nil => rfl
  | cons _ _ hfirst hrest => exact Bool.and_eq_true_iff.2 ⟨hfirst, hrest⟩

theorem DerivesStmt.introduces {rule : StmtRule} {phrase : StmtPhrase}
    (h : DerivesStmt rule s phrase t) : s.Introduces phrase.locals phrase.mentions t := by
  induction h with
  | var h => exact h.introduces
  | call h _ => exact .of_resolves h.resolves
  | assign _ htarget _ hsource _ =>
    exact .of_resolves (htarget.resolves.append hsource.resolves)
  | ret _ hvalue _ => exact .of_resolves hvalue.resolves
  | branch _ hcondition _ _ htaken hother =>
    have hblocks := ((ParseState.Introduces.of_resolves hcondition.resolves).append htaken).append
      hother
    rw [StmtPhrase.locals, Stmt.locals, List.map_append]
    exact hblocks
  | loop _ hcondition _ hbody =>
    exact (ParseState.Introduces.of_resolves hcondition.resolves).append hbody
  | block _ _ _ ih => exact ih.block
  | otherwise _ _ ih => exact ih
  | missing => exact .of_resolves (.nil rfl rfl)
  | nil => exact .of_resolves (.nil rfl rfl)
  | @cons s t u stmt stmts _ _ hfirst hrest =>
    have hboth := hfirst.append hrest
    rw [StmtPhrase.locals, StmtPhrase.locals, ← List.map_append] at hboth
    exact hboth

theorem Items.declares {ids : List SymbolId} (h : Items DerivesParam s ids t)
    (hlog : t.log = []) : s.log = [] ∧ s.scope.Declares .param ids t.scope := by
  induction h with
  | nil => exact ⟨hlog, .refl⟩
  | cons hitem _ ih =>
    obtain ⟨_, hitem⟩ := hitem
    obtain ⟨hlog, hids⟩ := ih hlog
    obtain ⟨hlog, hid⟩ := hitem.declares (fun _ h => nomatch h) hlog
    exact ⟨hlog, hid.trans hids⟩

theorem DerivesParams.declares {ids : List SymbolId} (h : DerivesParams s ids t)
    (hlog : t.log = []) : s.log = [] ∧ s.scope.Declares .param ids t.scope := by
  cases h with
  | none => exact ⟨hlog, .refl⟩
  | some hfirst hrest =>
    obtain ⟨hlog, hids⟩ := hrest.declares hlog
    obtain ⟨hlog, hid⟩ := hfirst.declares (fun _ h => nomatch h) hlog
    exact ⟨hlog, hid.trans hids⟩

/-- From `s` to `t` a declaration is added to the current scope. The table is any that has all
symbols made up to `t`. -/
structure Adds (table : SymbolTable) (s : ParseState σ) (decl : Decl) (t : ParseState σ) : Prop where
  log : s.log = []
  symbols : s.scope.symbols <+: table
  resolved : decl.Scoped table (decl.symbol :: s.scope.inReach)
  fresh : s.scope.current.find? (table.get decl.symbol).name = none
  bindings : t.scope.current.bindings =
    ((table.get decl.symbol).name, decl.symbol) :: s.scope.current.bindings
  outer : t.scope.outer = s.scope.outer
  name : s.advance.token.kind = .identifier ∧
    (table.get decl.symbol).name = s.advance.token.lexeme

section

variable {table : SymbolTable}

theorem Adds.of_frame {decl : Decl} {symbol : Symbol}
    (hcurrent : t.scope.current = s.scope.current.bind symbol.name s.scope.symbols.length)
    (houter : t.scope.outer = s.scope.outer) (hid : decl.symbol = s.scope.symbols.length) (hlog : s.log = [])
    (hfind : s.scope.current.find? symbol.name = none)
    (htable : s.scope.symbols ++ [symbol] <+: table)
    (hresolved : table.get decl.symbol = symbol → decl.Scoped table (decl.symbol :: s.scope.inReach))
    (hname : s.advance.token.kind = .identifier) (hlexeme : symbol.name = s.advance.token.lexeme) :
    Adds table s decl t := by
  have hget : table.get decl.symbol = symbol := by
    rw [hid]
    exact SymbolTable.get_of_append_prefix htable
  exact {
    log := hlog
    symbols := (List.prefix_append _ _).trans htable
    resolved := hresolved hget
    fresh := by rw [hget]; exact hfind
    bindings := by rw [hget, hcurrent, hid]; rfl
    outer := houter
    name := ⟨hname, hget ▸ hlexeme⟩ }

theorem Adds.of_bind {decl : Decl} {symbol : Symbol} (hscope : t.scope = s.scope.bind symbol)
    (hid : decl.symbol = s.scope.symbols.length) (hlog : s.log = [])
    (hfind : s.scope.current.find? symbol.name = none) (htable : t.scope.symbols <+: table)
    (hresolved : table.get decl.symbol = symbol → decl.Scoped table (decl.symbol :: s.scope.inReach))
    (hname : s.advance.token.kind = .identifier) (hlexeme : symbol.name = s.advance.token.lexeme) :
    Adds table s decl t := by
  rw [hscope] at htable
  refine .of_frame ?_ ?_ hid hlog hfind htable hresolved hname hlexeme
  · rw [hscope]
    rfl
  · rw [hscope]
    rfl

theorem DerivesVar.adds {decl : VarDecl} (h : DerivesVar s decl t) (hlog : t.log = [])
    (htable : t.scope.symbols <+: table) : Adds table s (.var decl) t := by
  obtain ⟨_, hname, _⟩ := h
  obtain ⟨hclean, symbol, name, hkind, hty, hlexeme, hfind, hid, hscope⟩ :=
    hname.binds (fun _ h => nomatch h) hlog
  obtain ⟨htoken, _, _, _⟩ := hname
  refine .of_bind hscope hid hclean hfind htable ?_ htoken hlexeme
  intro hget
  exact (congrArg Symbol.kind hget).trans hkind

theorem DerivesArray.adds {decl : VarDecl} (h : DerivesArray s decl t) (hlog : t.log = [])
    (htable : t.scope.symbols <+: table) : Adds table s (.array decl) t := by
  obtain @⟨u, v, id, extents, _, htoken, hdeclare, _, _, _, hextents, _⟩ := h
  have hkept := hextents.keeps (f := fun s => (s.log, s.scope)) fun _ _ _ ⟨_, _, _, _⟩ => rfl
  obtain ⟨hsame, hscope⟩ := Prod.mk.inj hkept
  obtain ⟨hclean, hfind, hid, hdeclared⟩ := ParseState.declare_clean hdeclare (hsame ▸ hlog)
  have hbind : v.scope.retype id (arrayType (Ty.ofName u.advance.token.lexeme) extents) =
      s.scope.bind ⟨s.advance.token.lexeme, arrayType (Ty.ofName u.advance.token.lexeme) extents,
        .array, s.advance.token.pos⟩ := by
    have hsame : v.scope = u.scope := hscope
    rw [hsame, hdeclared, hid]
    exact Scope.bind_retype s.scope _ _ rfl
  exact .of_bind hbind hid hclean hfind htable (fun hget => congrArg Symbol.kind hget) htoken rfl

/-- All that the body of a function declares comes behind its parameters and its type. -/
theorem DerivesFunction.adds {definition : FuncDef} (h : DerivesFunction s definition t)
    (hlog : t.log = []) (htable : t.scope.symbols <+: table) :
    Adds table s (.func definition) t := by
  obtain @⟨t, u, v, id, params, body, _, htoken, hdeclare, _, hparams, _, _, _, hbody⟩ := h
  have hformed := hbody.formed
  obtain ⟨hu, hlocals, hmentions⟩ := hbody.introduces hlog
  obtain ⟨ht, hdeclared⟩ := hparams.declares hu
  obtain ⟨hs, hfind, hid, hscope⟩ := ParseState.declare_clean hdeclare ht
  have hid : id = s.scope.symbols.length := hid
  subst hid
  -- The function is declared without its type, which is known behind the parameters. With the type
  -- from the beginning the scopes are the same.
  generalize hty : Ty.func (params.map fun p => (u.scope.symbol p).ty)
    (Ty.ofName u.advance.advance.token.lexeme) = ty at hlocals hmentions
  generalize hf : Symbol.mk s.advance.token.lexeme ty .func s.advance.token.pos = f
  have hparameters : (s.scope.bind f).enter.Declares .param params
      (u.scope.retype s.scope.symbols.length ty) := by
    have henter : t.advance.entered.scope =
        (s.scope.bind ⟨s.advance.token.lexeme, .void, .func, s.advance.token.pos⟩).enter :=
      congrArg Scope.enter hscope
    rw [henter] at hdeclared
    exact hf ▸ hdeclared.retype_bind rfl ty
  have hexit : v.scope.exit = { (s.scope.bind f) with symbols := v.scope.symbols } := by
    rw [Scope.exit, hlocals.outer.trans hparameters.outer]
    rfl
  have hv : v.scope.symbols <+: table := by
    have h : v.scope.exit.symbols <+: table := htable
    rw [hexit] at h
    exact h
  have hu : (u.scope.retype s.scope.symbols.length ty).symbols <+: table :=
    hlocals.symbols_prefix.trans hv
  have hs' : s.scope.symbols ++ [f] <+: table := hparameters.symbols_prefix.trans hu
  have hget : table.get s.scope.symbols.length = f := SymbolTable.get_of_append_prefix hs'
  have htypes : ∀ p ∈ params, (u.scope.symbol p).ty = (table.get p).ty := by
    intro p hp
    obtain ⟨hlow, hhigh⟩ := hparameters.mem_bounds hp
    have hlow : s.scope.symbols.length + 1 ≤ p := by
      simpa [Scope.enter, Scope.bind] using hlow
    rw [SymbolTable.get_of_prefix hu hhigh]
    exact congrArg Symbol.ty
      (SymbolTable.get_retype_of_ne (Nat.ne_of_gt hlow) u.scope.symbols ty).symm
  have hresolved : FuncDef.Scoped table (s.scope.symbols.length :: s.scope.inReach)
      ⟨v.exited.node s.token.pos, s.scope.symbols.length, params, body⟩ := by
    refine ⟨?_, ⟨u.advance.advance.token.lexeme, ?_⟩, ?_, ?_, hformed, ?_⟩
    · rw [hget, ← hf]
    · rw [hget, ← hf, ← hty, List.map_congr_left htypes]
    · exact fun id hid => hparameters.get hu hid
    · exact fun id hid => (hlocals.get hv hid).1
    · intro id hid
      rcases hmentions id hid with hreach | hlocal
      · exact (hparameters.reach id hreach).symm.imp_right .inr
      · exact .inr (.inl hlocal)
  have hcurrent : v.scope.exit.current = s.scope.current.bind f.name s.scope.symbols.length := by
    rw [hexit]
    rfl
  have houter : v.scope.exit.outer = s.scope.outer := by
    rw [hexit]
    rfl
  have hname : f.name = s.advance.token.lexeme := by rw [← hf]
  exact .of_frame hcurrent houter rfl hs (hname ▸ hfind) hs' (fun _ => hresolved) htoken hname

theorem DerivesDecl.adds {decl : Decl} (h : DerivesDecl s decl t) (hlog : t.log = [])
    (htable : t.scope.symbols <+: table) : Adds table s decl t := by
  cases h with
  | var h => exact h.adds hlog htable
  | array h => exact h.adds hlog htable
  | func h => exact h.adds hlog htable

end

section

open TokenStream (Ahead)

theorem Derives.ahead {rule : Rule} {phrase : Phrase} (h : Derives rule s phrase t) :
    Ahead s.stream t.stream := by
  induction h with
  | literal => exact .next
  | negation _ _ ih => exact Ahead.next.trans ih
  | parenthesized _ _ _ ih => exact .later (Ahead.next.trans ih)
  | load _ ih => exact ih
  | called _ ih => exact ih
  | promoted _ ih => exact ih
  | binary _ _ _ left right => exact left.trans (Ahead.next.trans right)
  | name _ hresolve => exact Ahead.next.trans (ParseState.resolve_ahead hresolve)
  | subscript _ _ _ _ base offset => exact .later (base.trans (Ahead.next.trans offset))
  | call _ _ hresolve _ _ _ args =>
    have hcallee := (Ahead.later .next).trans (ParseState.resolve_ahead hresolve)
    exact .later (hcallee.trans (Ahead.next.trans args))
  | noArguments => exact .here
  | arguments _ _ first rest => exact first.trans rest
  | noMore => exact .here
  | more _ _ _ first rest => exact (Ahead.next.trans first).trans rest

theorem Annotates.ahead {kind : SymbolKind} {id : SymbolId} (h : Annotates kind s id t) :
    Ahead s.stream t.stream := by
  obtain ⟨_, hdeclare, _, _⟩ := h
  exact .later (.later (Ahead.next.trans (ParseState.declare_ahead hdeclare)))

theorem DerivesVar.ahead {decl : VarDecl} (h : DerivesVar s decl t) :
    Ahead s.stream t.stream := by
  obtain ⟨_, hname, _⟩ := h
  exact .later (Ahead.next.trans hname.ahead)

theorem DerivesStmt.ahead {rule : StmtRule} {phrase : StmtPhrase}
    (h : DerivesStmt rule s phrase t) : Ahead s.stream t.stream := by
  induction h with
  | var h => exact h.ahead
  | call h _ => exact .later h.ahead
  | assign _ htarget _ hsource _ =>
    exact .later ((Ahead.next.trans htarget.ahead).trans (Ahead.next.trans hsource.ahead))
  | ret _ hvalue _ => exact .later (Ahead.next.trans hvalue.ahead)
  | branch _ hcondition _ _ taken other =>
    exact (Ahead.next.trans hcondition.ahead).trans (taken.trans other)
  | loop _ hcondition _ body => exact (Ahead.next.trans hcondition.ahead).trans body
  | @block s t ownScope stmts _ _ _ ih =>
    rw [ParseState.opened_stream, ← ParseState.closed_stream t ownScope] at ih
    exact .later (Ahead.next.trans ih)
  | otherwise _ _ ih => exact Ahead.next.trans ih
  | missing => exact .here
  | nil => exact .here
  | cons _ _ first rest => exact first.trans rest

theorem Items.ahead {α : Type} {R : ParseState σ → α → ParseState σ → Prop}
    (hR : ∀ s a t, R s a t → Ahead s.stream t.stream) {as : List α} (h : Items R s as t) :
    Ahead s.stream t.stream := by
  induction h with
  | nil => exact .here
  | cons hitem _ ih => exact (hR _ _ _ hitem).trans ih

theorem DerivesParams.ahead {ids : List SymbolId} (h : DerivesParams s ids t) :
    Ahead s.stream t.stream := by
  cases h with
  | none => exact .here
  | some hfirst hrest =>
    exact hfirst.ahead.trans (hrest.ahead fun _ _ _ ⟨_, h⟩ => Ahead.next.trans h.ahead)

theorem DerivesDecl.ahead {decl : Decl} (h : DerivesDecl s decl t) :
    Ahead s.stream t.stream := by
  cases h with
  | var h => exact h.ahead
  | array h =>
    obtain ⟨_, _, hdeclare, _, _, _, hextents, _⟩ := h
    have hname := (Ahead.later .next).trans (ParseState.declare_ahead hdeclare)
    have hextent := hextents.ahead fun _ _ _ ⟨_, _, _, _⟩ => .later (.later .next)
    exact .later (hname.trans ((Ahead.later .next).trans hextent))
  | func h =>
    obtain ⟨_, _, hdeclare, _, hparams, _, _, _, hbody⟩ := h
    have hname := (Ahead.later .next).trans (ParseState.declare_ahead hdeclare)
    have hsignature := hname.trans (Ahead.next.trans hparams.ahead)
    exact hsignature.trans ((Ahead.later (.later .next)).trans hbody.ahead)

theorem Items.scoped {table : SymbolTable} {isName : String → Prop} {decls : List Decl}
    (h : Items DerivesDecl s decls t) (hlog : t.log = []) (htable : t.scope.symbols <+: table) :
    s.log = [] ∧ s.scope.symbols <+: table ∧ (s.scope.outer = [] →
      (∀ binding ∈ s.scope.current.bindings, (table.get binding.2).name = binding.1) →
      (∀ stream, Ahead s.stream stream → (TokenStream.peek stream).kind = .identifier →
        isName (TokenStream.peek stream).lexeme) →
      Scoped table isName s.scope.current.ids decls) := by
  induction h with
  | nil => exact ⟨hlog, htable, fun _ _ _ => .nil⟩
  | @cons s u t decl decls hdecl _ ih =>
    obtain ⟨hu, hsymbols, hrest⟩ := ih hlog htable
    have hadds := hdecl.adds hu hsymbols
    refine ⟨hadds.log, hadds.symbols, ?_⟩
    intro houter hnamed hstream
    have hreach : s.scope.inReach = s.scope.current.ids := by
      simp [Scope.inReach, Scope.frames, houter]
    have hids : u.scope.current.ids = decl.symbol :: s.scope.current.ids := by
      simp [Frame.ids, hadds.bindings]
    refine .cons ?_ ?_ (hreach ▸ hadds.resolved) ?_
    · rw [hadds.name.2]
      exact hstream _ .next hadds.name.1
    · intro id hid
      obtain ⟨binding, hbinding, rfl⟩ := List.mem_map.1 hid
      rw [hnamed binding hbinding]
      exact Frame.ne_of_find?_none hadds.fresh hbinding
    · rw [← hids]
      refine hrest (hadds.outer.trans houter) ?_ ?_
      · intro binding hbinding
        rw [hadds.bindings] at hbinding
        rcases List.mem_cons.1 hbinding with rfl | hold
        · rfl
        · exact hnamed binding hold
      · intro stream hahead
        exact hstream stream (hdecl.ahead.trans hahead)

end

end Parser

/-- A parse that logs nothing ends in a program, whose names are resolved and whose nodes are
numbered apart. -/
theorem parse_scoped {σ : Type} [TokenStream σ] {stream : σ} (h : (parse stream).log = [])
    {isName : String → Prop}
    (hnames : ∀ later, TokenStream.Ahead stream later →
      (TokenStream.peek later).kind = .identifier → isName (TokenStream.peek later).lexeme) :
    ∃ node decls, (parse stream).tree = .program node decls ∧
      Scope.initial.symbols <+: (parse stream).symbols ∧
      Scoped (parse stream).symbols isName Scope.initial.current.ids decls := by
  obtain ⟨_, _, ⟨hdecls, _⟩, hparse⟩ := parse_derives (parse_isError_of_clean h)
  rw [hparse] at h ⊢
  obtain ⟨_, hsymbols, hscoped⟩ := hdecls.scoped h (List.prefix_refl _)
  refine ⟨_, _, rfl, hsymbols, ?_⟩
  refine hscoped rfl ?_ hnames
  intro binding hbinding
  obtain ⟨hbound, hname⟩ := Scope.initial_named binding hbinding
  rw [SymbolTable.get_of_prefix hsymbols hbound]
  exact hname

end MipsCompiler
