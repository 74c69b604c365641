import MipsCompiler.Proofs.Parsing.Freshness
import MipsCompiler.Proofs.Postorder

set_option autoImplicit false

/-!
# Symbols of programs with refused names

When a parser goes on behind a name that it refuses, each symbol that it makes can still be accounted
for: it stands for a refused name, it is a variable or a parameter of the tree, or its type is no
error. `parse_accounts` says so of the table of a parse that is not given up, and that the tree names
no symbol outside the table.
-/

namespace MipsCompiler

/-- The symbol stands for a name whose refusal is in the log. -/
def Symbol.RefusedIn (log : Log) (symbol : Symbol) : Prop :=
  ∃ pos name scopes, ∃ d ∈ log,
    (d = .redeclared pos name scopes ∨ d = .unresolved pos name scopes) ∧
      symbol = Symbol.refused name d

/-- Why a symbol may have an error type, if it has one. -/
inductive Symbol.Explained (log : Log) (declared : List SymbolId) (id : SymbolId) (symbol : Symbol) :
    Prop
  | refused : symbol.RefusedIn log → Explained log declared id symbol
  | declared : symbol.isError = false → id ∈ declared → Explained log declared id symbol
  | sound : symbol.isError = false → symbol.ty.isError = false → Explained log declared id symbol

theorem Symbol.isError_retype (symbol : Symbol) (ty : Ty) :
    (symbol.retype ty).isError = symbol.isError := by
  unfold retype
  split <;> rfl

namespace Symbol.Explained

variable {log log' : Log} {declared declared' : List SymbolId} {id : SymbolId} {symbol : Symbol}

theorem mono (h : symbol.Explained log declared id) (hlog : log ⊆ log')
    (hdeclared : declared ⊆ declared') : symbol.Explained log' declared' id := by
  cases h with
  | refused h =>
    obtain ⟨pos, name, scopes, d, hd, hsymbol⟩ := h
    exact .refused ⟨pos, name, scopes, d, hlog hd, hsymbol⟩
  | declared herror h => exact .declared herror (hdeclared h)
  | sound herror h => exact .sound herror h

theorem retype (h : symbol.Explained log declared id) {ty : Ty}
    (hty : ty.isError = false ∨ id ∈ declared) : (symbol.retype ty).Explained log declared id := by
  cases herror : symbol.isError with
  | true =>
    have hkept : symbol.retype ty = symbol := by simp [Symbol.retype, herror]
    rwa [hkept]
  | false =>
    have herror' : (symbol.retype ty).isError = false := (symbol.isError_retype ty).trans herror
    have hnew : (symbol.retype ty).ty = ty := by simp [Symbol.retype, herror]
    rcases hty with hty | hdeclared
    · exact .sound herror' (by rwa [hnew])
    · exact .declared herror' hdeclared

theorem refusedIn (h : symbol.Explained log declared id) (herror : symbol.isError) :
    symbol.RefusedIn log := by
  cases h with
  | refused h => exact h
  | declared hsound _ => exact absurd herror (by simp [hsound])
  | sound hsound _ => exact absurd herror (by simp [hsound])

end Symbol.Explained

namespace SymbolTable

theorem get_retype_self {symbols : SymbolTable} {id : SymbolId} (h : id < symbols.length) (ty : Ty) :
    get (retype symbols id ty) id = (symbols.get id).retype ty := by
  simp [get, retype, List.getElem?_eq_getElem h]

theorem prefix_retype {symbols table : SymbolTable} (h : symbols <+: table) {id : SymbolId}
    (hid : symbols.length ≤ id) (ty : Ty) : symbols <+: table.retype id ty := by
  rw [List.prefix_iff_eq_take] at h ⊢
  rw [retype, List.take_modify, ← h, List.modify_eq_self hid]

end SymbolTable

def Scope.Bounded (s : Scope) : Prop :=
  ∀ id ∈ s.inReach, id < s.symbols.length

theorem Scope.Bounded.exit {s : Scope} (h : s.Bounded) : s.exit.Bounded := by
  unfold Scope.exit
  cases houter : s.outer with
  | nil => exact h
  | cons frame frames =>
    intro id hid
    have hinner : s.inReach = s.current.ids ++ (frame :: frames).flatMap Frame.ids := by
      rw [Scope.inReach, Scope.frames, houter]
      rfl
    exact h id (hinner ▸ List.mem_append_right _ hid)

/-- What a parser has made of the names so far. -/
structure Naming where
  scope : Scope
  log : Log

namespace Naming

def symbols (s : Naming) : SymbolTable :=
  s.scope.symbols

/-- From `s` to `t` the log and the table grow, the symbols `used` are named, and each symbol that is
made can be explained by the log or by the symbols `declared`. -/
structure Accounts (s : Naming) (declared used : List SymbolId) (t : Naming) : Prop where
  log : s.log <+: t.log
  symbols : s.symbols <+: t.symbols
  bounded : s.scope.Bounded → t.scope.Bounded
  used : s.scope.Bounded → ∀ id ∈ used, id < t.symbols.length
  made : ∀ id, s.symbols.length ≤ id → id < t.symbols.length →
    (t.symbols.get id).Explained t.log declared id

namespace Accounts

variable {s t u : Naming} {declared others used more : List SymbolId}

theorem nothing (s : Naming) : Accounts s [] [] s :=
  ⟨List.prefix_refl _, List.prefix_refl _, fun h => h, fun _ _ h => absurd h List.not_mem_nil,
    fun _ hold hnew => absurd hnew (Nat.not_lt.2 hold)⟩

theorem trans (h : Accounts s declared used t) (h' : Accounts t others more u) :
    Accounts s (declared ++ others) (used ++ more) u where
  log := h.log.trans h'.log
  symbols := h.symbols.trans h'.symbols
  bounded hs := h'.bounded (h.bounded hs)
  used hs id hid := by
    rcases List.mem_append.1 hid with hid | hid
    · exact Nat.lt_of_lt_of_le (h.used hs id hid) h'.symbols.length_le
    · exact h'.used (h.bounded hs) id hid
  made id hold hnew := by
    by_cases hid : id < t.symbols.length
    · rw [SymbolTable.get_of_prefix h'.symbols hid]
      exact (h.made id hold hid).mono h'.log.subset (List.subset_append_left _ _)
    · exact (h'.made id (Nat.not_lt.1 hid) hnew).mono (fun _ h => h) (List.subset_append_right _ _)

theorem weaken (h : Accounts s declared used t) (hdeclared : declared ⊆ others) (hused : more ⊆ used) :
    Accounts s others more t where
  log := h.log
  symbols := h.symbols
  bounded := h.bounded
  used hs id hid := h.used hs id (hused hid)
  made id hold hnew := (h.made id hold hnew).mono (fun _ h => h) hdeclared

theorem make {symbol : Symbol} (hlog : s.log <+: t.log) (hsymbols : t.symbols = s.symbols ++ [symbol])
    (hreach : ∀ id ∈ t.scope.inReach, id = s.symbols.length ∨ id ∈ s.scope.inReach)
    (hsymbol : symbol.Explained t.log declared s.symbols.length) :
    Accounts s declared [s.symbols.length] t := by
  have hlength : t.symbols.length = s.symbols.length + 1 := by
    rw [hsymbols, List.length_append]
    rfl
  have hlast : s.symbols.length < t.symbols.length := by
    rw [hlength]
    exact Nat.lt_succ_self _
  refine ⟨hlog, hsymbols ▸ List.prefix_append _ _, ?_, ?_, ?_⟩
  · intro hs id hid
    refine Nat.lt_of_le_of_lt ?_ hlast
    rcases hreach id hid with rfl | hid
    · exact Nat.le_refl _
    · exact Nat.le_of_lt (hs id hid)
  · intro _ id hid
    rwa [List.mem_singleton.1 hid]
  · intro id hold hnew
    obtain rfl : id = s.symbols.length :=
      Nat.le_antisymm (Nat.le_of_lt_succ (Nat.lt_of_lt_of_eq hnew hlength)) hold
    have hget : t.symbols.get s.symbols.length = symbol := by
      rw [hsymbols]
      exact SymbolTable.get_of_append_prefix (List.prefix_refl _)
    rwa [hget]

theorem retype (h : Accounts s declared used t) {id : SymbolId} {ty : Ty}
    (hid : s.symbols.length ≤ id) (hty : ty.isError = false ∨ id ∈ declared) :
    Accounts s declared used ⟨t.scope.retype id ty, t.log⟩ := by
  have hlength : (t.symbols.retype id ty).length = t.symbols.length :=
    SymbolTable.length_retype t.symbols id ty
  refine ⟨h.log, SymbolTable.prefix_retype h.symbols hid ty, ?_, ?_, ?_⟩
  · intro hs other hother
    exact Nat.lt_of_lt_of_eq (h.bounded hs other hother) hlength.symm
  · intro hs other hother
    exact Nat.lt_of_lt_of_eq (h.used hs other hother) hlength.symm
  · intro other hold hnew
    have hkept := h.made other hold (Nat.lt_of_lt_of_eq hnew hlength)
    change (SymbolTable.get (t.symbols.retype id ty) other).Explained t.log declared other
    by_cases hother : other = id
    · subst hother
      rw [SymbolTable.get_retype_self (Nat.lt_of_lt_of_eq hnew hlength)]
      exact hkept.retype hty
    · rw [SymbolTable.get_retype_of_ne hother]
      exact hkept

theorem enter (h : Accounts ⟨s.scope.enter, s.log⟩ declared used t) : Accounts s declared used t :=
  ⟨h.log, h.symbols, h.bounded, h.used, h.made⟩

theorem exit (h : Accounts s declared used t) : Accounts s declared used ⟨t.scope.exit, t.log⟩ := by
  have hsymbols : (⟨t.scope.exit, t.log⟩ : Naming).symbols = t.symbols := t.scope.exit_symbols
  refine ⟨h.log, ?_, fun hs => (h.bounded hs).exit, ?_, ?_⟩
  · rw [hsymbols]
    exact h.symbols
  · rw [hsymbols]
    exact h.used
  · rw [hsymbols]
    exact h.made

end Accounts

end Naming

/-- The variables and parameters that a node itself declares. -/
def Subtree.declares : Subtree → List SymbolId
  | decl (.var d) => [d.symbol]
  | decl (.func definition) => definition.params
  | stmt (.var d) => [d.symbol]
  | _ => []

/-- The symbols that a node itself names. -/
def Subtree.names : Subtree → List SymbolId
  | decl d => [d.symbol]
  | stmt (.var d) => [d.symbol]
  | stmt (.call _ callee _) => [callee]
  | expr (.address _ symbol) => [symbol]
  | expr (.call _ callee _) => [callee]
  | _ => []

def Subtree.nodes (roots : List Subtree) : List Subtree :=
  roots.flatMap postorder

namespace ParseState

variable {σ : Type}

def naming (s : ParseState σ) : Naming :=
  ⟨s.scope, s.log⟩

/-- From `s` to `t` the symbols that are made and named are those of the subtrees. -/
def Lists (s : ParseState σ) (roots : List Subtree) (t : ParseState σ) : Prop :=
  s.naming.Accounts ((Subtree.nodes roots).flatMap Subtree.declares)
    ((Subtree.nodes roots).flatMap Subtree.names) t.naming

section

variable {s t u : ParseState σ} {roots others : List Subtree} {part : Subtree}

theorem Lists.nil (s : ParseState σ) : Lists s [] s :=
  .nothing s.naming

theorem Lists.append (h : Lists s roots t) (h' : Lists t others u) : Lists s (roots ++ others) u := by
  have hboth := h.trans h'
  rw [← List.flatMap_append, ← List.flatMap_append] at hboth
  unfold Lists Subtree.nodes
  rw [List.flatMap_append]
  exact hboth

/-- A node whose own symbols are made and named before those of its children. -/
theorem Lists.node (hown : s.naming.Accounts part.declares part.names t.naming)
    (hchildren : Lists t part.children u) : Lists s [part] u := by
  have hnodes : Subtree.nodes [part] = Subtree.nodes part.children ++ [part] := by
    rw [Subtree.nodes, List.flatMap_singleton, Subtree.postorder_eq]
    rfl
  unfold Lists
  rw [hnodes, List.flatMap_append, List.flatMap_append, List.flatMap_singleton,
    List.flatMap_singleton]
  refine (hown.trans hchildren).weaken ?_ ?_
  · exact (List.perm_append_comm).subset
  · exact (List.perm_append_comm).subset

theorem Lists.around (hchildren : Lists s part.children t) (hdeclares : part.declares = [])
    (hnames : part.names = []) : Lists s [part] t := by
  refine .node ?_ hchildren
  rw [hdeclares, hnames]
  exact .nothing s.naming

theorem Lists.congr {other : Subtree} (h : Lists s [part] t) (hchildren : other.children = part.children)
    (hdeclares : other.declares = part.declares) (hnames : other.names = part.names) :
    Lists s [other] t := by
  unfold Lists Subtree.nodes at h ⊢
  simp only [List.flatMap_singleton, Subtree.postorder_eq, List.flatMap_append] at h ⊢
  rw [hchildren, hdeclares, hnames]
  exact h

theorem Lists.block {ownScope : Bool} (h : Lists (s.opened ownScope) roots t) :
    Lists s roots (t.closed ownScope) := by
  cases ownScope with
  | false => exact h
  | true => exact (Naming.Accounts.enter (s := s.naming) h).exit

theorem declare_accounts {name : Token} {kind : SymbolKind} {id : SymbolId}
    (h : s.declare name kind = (id, t)) (hkind : ∀ message, kind ≠ .error message) :
    id = s.naming.symbols.length ∧ s.naming.Accounts [] [id] t.naming := by
  simp only [declare, Parser.settle, Scope.declare, Prod.mk.injEq] at h
  obtain ⟨rfl, rfl⟩ := h
  cases hfind : s.scope.current.find? name.lexeme with
  | none =>
    refine ⟨rfl, .make ?_ rfl ?_ ?_⟩
    · exact List.prefix_append _ _
    · intro id hid
      exact List.mem_cons.1 hid
    · refine .sound ?_ rfl
      cases kind with
      | error message => exact absurd rfl (hkind message)
      | _ => rfl
  | some other =>
    refine ⟨rfl, .make ?_ rfl ?_ ?_⟩
    · exact List.prefix_append _ _
    · intro id hid
      exact List.mem_cons.1 hid
    · exact .refused ⟨name.pos, name.lexeme, _, _, List.mem_append_right _ List.mem_cons_self,
        .inl rfl, rfl⟩

theorem resolve_accounts {name : Token} {id : SymbolId} (h : s.resolve name = (id, t)) :
    s.naming.Accounts [] [id] t.naming := by
  simp only [resolve, Parser.settle, Scope.resolve, Prod.mk.injEq] at h
  obtain ⟨rfl, rfl⟩ := h
  cases hfind : s.scope.find? name.lexeme with
  | some other =>
    refine ⟨List.prefix_append _ _, List.prefix_refl _, fun hs => hs, ?_, ?_⟩
    · intro hs id hid
      rw [List.mem_singleton.1 hid]
      exact hs other (Scope.mem_inReach_of_find? hfind)
    · exact fun _ hold hnew => absurd hnew (Nat.not_lt.2 hold)
  | none =>
    refine .make (List.prefix_append _ _) rfl (fun _ hid => .inr hid) ?_
    exact .refused ⟨name.pos, name.lexeme, _, _, List.mem_append_right _ List.mem_cons_self,
      .inr rfl, rfl⟩

end

end ParseState

/-- The symbol of a function is an error symbol, or has the types of the parameters in its type. -/
structure FuncDef.Signed (symbols : SymbolTable) (definition : FuncDef) : Prop where
  symbol : definition.symbol < symbols.length
  params : ∀ id ∈ definition.params, id < symbols.length
  signature : (symbols.get definition.symbol).isError = true ∨
    ∃ result, (symbols.get definition.symbol).ty =
      .func (definition.params.map fun id => (symbols.get id).ty) result

theorem FuncDef.Signed.mono {symbols table : SymbolTable} {definition : FuncDef}
    (h : definition.Signed symbols) (htable : symbols <+: table) : definition.Signed table := by
  have hle := htable.length_le
  refine ⟨Nat.lt_of_lt_of_le h.symbol hle, fun id hid => Nat.lt_of_lt_of_le (h.params id hid) hle, ?_⟩
  have hparams : (definition.params.map fun id => (table.get id).ty) =
      definition.params.map fun id => (symbols.get id).ty := by
    refine List.map_congr_left fun id hid => ?_
    rw [SymbolTable.get_of_prefix htable (h.params id hid)]
  rw [SymbolTable.get_of_prefix htable h.symbol, hparams]
  exact h.signature

theorem FuncDef.Signed.of_retype (symbols : SymbolTable) (definition : FuncDef) (result : Ty)
    (hsymbol : definition.symbol < symbols.length)
    (hparams : ∀ id ∈ definition.params, id < symbols.length ∧ id ≠ definition.symbol) :
    definition.Signed (symbols.retype definition.symbol
      (.func (definition.params.map fun id => (symbols.get id).ty) result)) := by
  generalize hty : Ty.func (definition.params.map fun id => (symbols.get id).ty) result = ty
  have hlength := SymbolTable.length_retype symbols definition.symbol ty
  refine ⟨?_, ?_, ?_⟩
  · rwa [hlength]
  · intro id hid
    rw [hlength]
    exact (hparams id hid).1
  · rw [SymbolTable.get_retype_self hsymbol]
    cases herror : (symbols.get definition.symbol).isError with
    | true => exact .inl ((Symbol.isError_retype _ ty).trans herror)
    | false =>
      refine .inr ⟨result, ?_⟩
      have hkept (id : SymbolId) (hid : id ∈ definition.params) :
          ((symbols.retype definition.symbol ty).get id).ty = (symbols.get id).ty := by
        rw [SymbolTable.get_retype_of_ne (hparams id hid).2]
      rw [List.map_congr_left hkept, hty]
      simp [Symbol.retype, herror]

def Phrase.subtrees : Phrase → List Subtree
  | .expr e => [.expr e]
  | .args es => es.map .expr

def StmtPhrase.subtrees : StmtPhrase → List Subtree
  | .stmt s => [.stmt s]
  | .stmts ss => ss.map .stmt
  | .block b => [.block b]

namespace Parser

variable {σ : Type} [TokenStream σ] {s t : ParseState σ}

theorem Derives.lists {rule : Rule} {phrase : Phrase} (h : Derives rule s phrase t) :
    s.Lists phrase.subtrees t := by
  induction h with
  | literal => exact .around (.nil _) rfl rfl
  | negation _ _ ih => exact .around ih rfl rfl
  | parenthesized _ _ _ ih => exact ih
  | load _ ih => exact .around ih rfl rfl
  | called _ ih => exact ih
  | promoted _ ih => exact ih
  | binary _ _ _ hleft hright => exact .around (hleft.append hright) rfl rfl
  | name _ hresolve =>
    have hname := ParseState.resolve_accounts hresolve
    exact .node hname (.nil _)
  | subscript _ _ _ _ hbase hoffset => exact .around (hbase.append hoffset) rfl rfl
  | call _ _ hresolve _ _ _ hargs =>
    have hcallee := ParseState.resolve_accounts hresolve
    exact .node hcallee hargs
  | noArguments => exact .nil _
  | arguments _ _ hfirst hrest => exact hfirst.append hrest
  | noMore => exact .nil _
  | more _ _ _ hfirst hrest => exact hfirst.append hrest

theorem Annotates.accounts {kind : SymbolKind} {id : SymbolId} (h : Annotates kind s id t)
    (hkind : ∀ message, kind ≠ .error message) :
    id = s.naming.symbols.length ∧ s.naming.Accounts [id] [id] t.naming := by
  obtain ⟨_, hdeclare, _, _⟩ := h
  obtain ⟨hid, hmade⟩ := ParseState.declare_accounts hdeclare hkind
  have hdeclared := hmade.weaken (List.nil_subset [id]) (List.Subset.refl [id])
  exact ⟨hid, hdeclared.retype (Nat.le_of_eq hid.symm) (.inr List.mem_cons_self)⟩

theorem DerivesVar.accounts {decl : VarDecl} (h : DerivesVar s decl t) :
    s.naming.Accounts [decl.symbol] [decl.symbol] t.naming := by
  obtain ⟨_, hname, _⟩ := h
  exact (hname.accounts fun _ => SymbolKind.noConfusion).2

theorem DerivesStmt.lists {rule : StmtRule} {phrase : StmtPhrase}
    (h : DerivesStmt rule s phrase t) : s.Lists phrase.subtrees t := by
  induction h with
  | @var s t decl h => exact .node h.accounts (.nil t)
  | call h _ =>
    have hcall := h.lists
    exact hcall.congr rfl rfl rfl
  | assign _ htarget _ hsource _ => exact .around (htarget.lists.append hsource.lists) rfl rfl
  | ret _ hvalue _ => exact .around hvalue.lists rfl rfl
  | branch _ hcondition _ _ htaken hother =>
    exact .around ((hcondition.lists.append htaken).append hother) rfl rfl
  | loop _ hcondition _ hbody => exact .around (hcondition.lists.append hbody) rfl rfl
  | block _ _ _ ih => exact .around ih.block rfl rfl
  | otherwise _ _ ih => exact ih
  | missing => exact .around (.nil _) rfl rfl
  | nil => exact .nil _
  | cons _ _ hfirst hrest => exact hfirst.append hrest

theorem Annotates.accounts_cons {u : ParseState σ} {id : SymbolId} {ids : List SymbolId}
    (h : Annotates .param s id t)
    (hrest : t.naming.Accounts ids ids u.naming ∧ ∀ other ∈ ids, t.naming.symbols.length ≤ other) :
    s.naming.Accounts (id :: ids) (id :: ids) u.naming ∧
      ∀ other ∈ id :: ids, s.naming.symbols.length ≤ other := by
  obtain ⟨hid, hfirst⟩ := h.accounts fun _ => SymbolKind.noConfusion
  have hle := hfirst.symbols.length_le
  refine ⟨hfirst.trans hrest.1, List.forall_mem_cons.2 ⟨Nat.le_of_eq hid.symm, ?_⟩⟩
  exact fun other hmem => Nat.le_trans hle (hrest.2 other hmem)

theorem Items.accounts {ids : List SymbolId} (h : Items DerivesParam s ids t) :
    s.naming.Accounts ids ids t.naming ∧ ∀ id ∈ ids, s.naming.symbols.length ≤ id := by
  induction h with
  | nil => exact ⟨.nothing _, fun _ h => absurd h List.not_mem_nil⟩
  | cons hitem _ ih =>
    obtain ⟨_, hitem⟩ := hitem
    have hboth := hitem.accounts_cons ih
    exact hboth

theorem DerivesParams.accounts {ids : List SymbolId} (h : DerivesParams s ids t) :
    s.naming.Accounts ids ids t.naming ∧ ∀ id ∈ ids, s.naming.symbols.length ≤ id := by
  cases h with
  | none => exact ⟨.nothing _, fun _ h => absurd h List.not_mem_nil⟩
  | some hfirst hrest => exact hfirst.accounts_cons hrest.accounts

theorem isError_arrayType {base : Ty} {extents : List Nat} (h : extents ≠ []) :
    (arrayType base extents).isError = false := by
  cases extents with
  | nil => exact absurd rfl h
  | cons => rfl

theorem Items.extents_naming {extents : List Nat} (h : Items DerivesExtent s extents t) :
    t.naming = s.naming := by
  refine h.keeps (f := ParseState.naming) ?_
  rintro _ _ _ ⟨_, _, _, _⟩
  rfl

theorem DerivesArray.accounts {decl : VarDecl} (h : DerivesArray s decl t) :
    s.naming.Accounts [] [decl.symbol] t.naming := by
  obtain @⟨u, v, id, extents, _, _, hdeclare, _, _, hextents, hitems, _⟩ := h
  obtain ⟨hid, hmade⟩ := ParseState.declare_accounts hdeclare fun _ => SymbolKind.noConfusion
  have hkept : v.naming = u.naming := hitems.extents_naming
  have hmade : s.naming.Accounts [] [id] v.naming := hkept ▸ hmade
  exact hmade.retype (Nat.le_of_eq hid.symm) (.inl (isError_arrayType hextents))

/-- The parameters of a function have other indices than the function, whose symbol is retyped. -/
theorem DerivesFunction.accounts {definition : FuncDef} (h : DerivesFunction s definition t)
    (hs : s.scope.Bounded) :
    s.Lists [.decl (.func definition)] t ∧ definition.Signed t.scope.symbols := by
  obtain @⟨t, u, v, id, params, body, _, _, hdeclare, _, hparams, _, _, _, hbody⟩ := h
  obtain ⟨hid, hname⟩ := ParseState.declare_accounts hdeclare fun _ => SymbolKind.noConfusion
  obtain ⟨hparams, hlater⟩ := hparams.accounts
  have hparams : t.naming.Accounts params params u.naming :=
    Naming.Accounts.enter (s := t.naming) hparams
  generalize hty : Ty.func (params.map fun p => (u.scope.symbol p).ty)
    (Ty.ofName u.advance.advance.token.lexeme) = ty at hbody
  have hsignature : s.naming.Accounts params (id :: params) (u.retype id ty).naming :=
    (hname.trans hparams).retype (Nat.le_of_eq hid.symm) (.inl (hty ▸ rfl))
  have hbody := hbody.lists
  constructor
  · have hown := hsignature.weaken (List.Subset.refl params)
      (List.cons_subset_cons id (List.nil_subset params))
    have hfunction : s.Lists [.decl (.func ⟨v.exited.node s.token.pos, id, params, body⟩)] v :=
      .node hown hbody
    exact hfunction.exit
  · have hfound : id < t.naming.symbols.length := hname.used hs id List.mem_cons_self
    have hbound := hparams.used (hname.bounded hs)
    have hsigned : FuncDef.Signed (u.retype id ty).scope.symbols
        ⟨v.exited.node s.token.pos, id, params, body⟩ := by
      subst hty
      have hmade : id < u.naming.symbols.length :=
        Nat.lt_of_lt_of_le hfound hparams.symbols.length_le
      have hother (p : SymbolId) (hp : p ∈ params) : p < u.naming.symbols.length ∧ p ≠ id :=
        ⟨hbound p hp, Nat.ne_of_gt (Nat.lt_of_lt_of_le hfound (hlater p hp))⟩
      exact .of_retype u.scope.symbols ⟨_, id, params, body⟩ _ hmade hother
    have htable : (u.retype id ty).scope.symbols <+: v.scope.exit.symbols := by
      rw [Scope.exit_symbols]
      exact hbody.symbols
    exact hsigned.mono htable

theorem DerivesDecl.accounts {decl : Decl} (h : DerivesDecl s decl t) (hs : s.scope.Bounded) :
    s.Lists [.decl decl] t ∧ ∀ definition, decl = .func definition →
      definition.Signed t.scope.symbols := by
  cases h with
  | var h => exact ⟨.node h.accounts (.nil t), fun _ h => Decl.noConfusion h⟩
  | array h => exact ⟨.node h.accounts (.nil t), fun _ h => Decl.noConfusion h⟩
  | func h =>
    obtain ⟨hlists, hsigned⟩ := h.accounts hs
    refine ⟨hlists, fun _ heq => ?_⟩
    cases heq
    exact hsigned

theorem Items.lists {decls : List Decl} (h : Items DerivesDecl s decls t) (hs : s.scope.Bounded) :
    s.Lists (decls.map .decl) t ∧ ∀ definition, Decl.func definition ∈ decls →
      definition.Signed t.scope.symbols := by
  induction h with
  | nil => exact ⟨.nil _, fun _ h => absurd h List.not_mem_nil⟩
  | cons hdecl _ ih =>
    obtain ⟨hfirst, hsigned⟩ := hdecl.accounts hs
    obtain ⟨hrest, hothers⟩ := ih (hfirst.bounded hs)
    refine ⟨hfirst.append hrest, fun definition hmem => ?_⟩
    rcases List.mem_cons.1 hmem with heq | hmem
    · exact (hsigned definition heq.symm).mono hrest.symbols
    · exact hothers definition hmem

end Parser

namespace Subtree

def isInner : Subtree → Bool
  | tree _ => false
  | decl _ => false
  | _ => true

theorem isInner_child {part child : Subtree} (hpart : part.isInner) (h : child ∈ part.children) :
    child.isInner := by
  cases part with
  | tree | decl => cases hpart
  | block b =>
    cases b with
    | mk node stmts =>
      obtain ⟨_, _, rfl⟩ := List.mem_map.1 h
      rfl
  | stmt s =>
    cases s with
    | var => exact absurd h List.not_mem_nil
    | call node callee args =>
      obtain ⟨_, _, rfl⟩ := List.mem_map.1 h
      rfl
    | _ =>
      simp only [children, List.mem_cons, List.not_mem_nil, or_false] at h
      rcases h with rfl | rfl | rfl <;> rfl
  | expr e =>
    cases e with
    | literal | address => exact absurd h List.not_mem_nil
    | call node callee args =>
      obtain ⟨_, _, rfl⟩ := List.mem_map.1 h
      rfl
    | _ =>
      simp only [children, List.mem_cons, List.not_mem_nil, or_false] at h
      rcases h with rfl | rfl <;> rfl

theorem isInner_of_mem {part other : Subtree} (hpart : part.isInner) (h : other ∈ part.postorder) :
    other.isInner :=
  forall_mem_postorder (P := fun part => part.isInner) (fun _ hpart _ => isInner_child hpart)
    hpart other h

theorem mem_decls {node : Node} {decls : List Decl} {d : Decl}
    (h : decl d ∈ (tree (.program node decls)).postorder) : d ∈ decls := by
  rcases mem_postorder.1 h with ⟨_, htop, h⟩ | h
  · obtain ⟨other, hother, rfl⟩ := List.mem_map.1 htop
    rcases mem_postorder.1 h with ⟨child, hchild, h⟩ | h
    · cases other with
      | var | array => exact absurd hchild List.not_mem_nil
      | func definition =>
        cases List.mem_singleton.1 hchild
        cases isInner_of_mem rfl h
    · cases h
      exact hother
  · cases h

end Subtree

theorem Scope.initial_bounded : Scope.initial.Bounded := by
  unfold Scope.Bounded
  decide

theorem Scope.initial_sound : ∀ symbol ∈ Scope.initial.symbols,
    symbol.isError = false ∧ symbol.ty.isError = false := by
  decide

structure Parsed.Accounted (parsed : Parsed) : Prop where
  names : ∀ part ∈ (Subtree.tree parsed.tree).postorder, ∀ id ∈ part.names,
    id < parsed.symbols.length
  symbols : ∀ id, id < parsed.symbols.length →
    (parsed.symbols.get id).Explained parsed.log
      ((Subtree.tree parsed.tree).postorder.flatMap Subtree.declares) id
  signed : ∀ definition, Subtree.decl (.func definition) ∈ (Subtree.tree parsed.tree).postorder →
    definition.Signed parsed.symbols

theorem parse_accounts {σ : Type} [TokenStream σ] {stream : σ}
    (h : (parse stream).tree.isError = false) : (parse stream).Accounted := by
  obtain ⟨_, _, @⟨t, decls, hdecls, _⟩, hparse⟩ := parse_derives h
  rw [hparse]
  obtain ⟨hlists, hsigned⟩ := hdecls.lists Scope.initial_bounded
  have htree : ParseState.Lists (.start stream)
      [.tree (.program (t.advance.node (TokenStream.peek stream).pos) decls)] t :=
    hlists.around rfl rfl
  unfold ParseState.Lists Subtree.nodes at htree
  rw [List.flatMap_singleton] at htree
  refine ⟨?_, ?_, fun definition hmem => hsigned definition (Subtree.mem_decls hmem)⟩
  · intro part hpart id hid
    exact htree.used Scope.initial_bounded id (List.mem_flatMap.2 ⟨part, hpart, hid⟩)
  · intro id hid
    by_cases hnew : Scope.initial.symbols.length ≤ id
    · exact htree.made id hnew hid
    · have hold := Nat.not_le.1 hnew
      change (t.naming.symbols.get id).Explained _ _ id
      rw [SymbolTable.get_of_prefix htree.symbols hold]
      have hmem : Scope.initial.symbols.get id ∈ Scope.initial.symbols := by
        rw [SymbolTable.get, List.getD_eq_getElem?_getD, List.getElem?_eq_getElem hold]
        exact List.getElem_mem hold
      obtain ⟨herror, hty⟩ := Scope.initial_sound _ hmem
      exact .sound herror hty

end MipsCompiler
