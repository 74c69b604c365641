import MipsCompiler.Proofs.Accepted
import MipsCompiler.Proofs.Grammar.Acceptance
import MipsCompiler.Proofs.Lowering.Coincidence
import MipsCompiler.Proofs.Lowering.Layout
import MipsCompiler.Proofs.TokenSources

set_option autoImplicit false

/-!
# Later declarations

A program that starts with complete declarations is read, checked and lowered declaration by
declaration as these are alone. Where they end, the state of the parser is the same in both programs,
so the symbols and node numbers given out before are the same. Later symbols are added behind them in
the table, and later types under other numbers.
-/

namespace MipsCompiler

open TokenStream (Agree Apart Between)
open ParseState (Alike Level)
open SymbolTable (Coincide)

/-! ## Parsing -/

namespace TokenQueue

theorem apart_split {front rest : List Token} {finish : Position} {t : TokenQueue}
    (h : Apart front.length (⟨front ++ rest, finish⟩ : TokenQueue) t) : t = ⟨rest, finish⟩ := by
  obtain ⟨tokens, hbetween, hlength⟩ := h
  obtain ⟨others, heq, rfl⟩ := between_split hbetween
  rw [(List.append_inj heq hlength.symm).2]

end TokenQueue

namespace Parser

section

variable {σ α : Type} [TokenStream σ] {test : TokenKind → Bool} {item : Parser σ α}
  {s t : ParseState σ} {n : Nat} {as : List α}

theorem many_next_ok (h : test s.token.kind) :
    many test item (n + 1) s = .ok as t ↔
      ∃ a u rest, item s = .ok a u ∧ many test item n u = .ok rest t ∧ as = a :: rest := by
  simp only [many, peek_bind, h, if_true, bind_ok, pure_ok]
  constructor
  · rintro ⟨a, u, hitem, rest, _, hrest, rfl, rfl⟩
    exact ⟨a, u, rest, hitem, hrest, rfl⟩
  · rintro ⟨a, u, rest, hitem, hrest, rfl⟩
    exact ⟨a, u, hitem, rest, t, hrest, rfl, rfl⟩

end

variable {front rest others : List Token} {finish last : Position}
  {s s' t : ParseState TokenQueue} {decl : Decl}

theorem declaration_starts (h : Yields (.category .declaration) (front.map Token.kind)) :
    ∃ token tokens, front = token :: tokens ∧ Nonterminal.declaration.starts token.kind := by
  obtain ⟨kind, kinds, hkinds, hkind⟩ := Nonterminal.declaration_startsIn _ h
  obtain ⟨token, tokens, rfl, rfl, _⟩ := List.map_eq_cons_iff.1 hkinds
  exact ⟨token, tokens, rfl, List.contains_iff_mem.2 hkind⟩

theorem declaration_alike (hfront : Yields (.category .declaration) (front.map Token.kind))
    (heof : ∀ token ∈ front ++ rest, token.kind ≠ .eof) (hs : s.stream = ⟨front ++ rest, finish⟩)
    (ht : t.stream = ⟨front ++ others, last⟩) (hlevel : Level .exact s t)
    (hrun : declaration s = .ok decl s') :
    s'.stream = ⟨rest, finish⟩ ∧ ∃ t', declaration t = .ok decl t' ∧
      t'.stream = ⟨others, last⟩ ∧ Level .exact s' t' := by
  obtain ⟨tokens, hbetween, hdecl⟩ := (declaration_sound hrun).spans
  rw [hs] at hbetween
  obtain ⟨behind, heq, hs'⟩ := TokenQueue.between_split hbetween
  obtain rfl := declaration_prefix_free hfront hdecl.sentence heq heof
  obtain rfl := List.append_cancel_left heq
  refine ⟨hs', ?_⟩
  have hlockstep : Lockstep (σ := TokenQueue) (τ := TokenQueue) .exact
      (TokenStream.remaining s.stream) (TokenStream.remaining t.stream) (fun _ => True) 0 1
      (Decl.move id) declaration declaration := declaration_lockstep
  obtain ⟨len, _, hapart, hmatch⟩ := hlockstep.ok (Nat.le_refl _) trivial hrun
  rw [hs] at hapart
  obtain rfl := hapart.unique ⟨front, hbetween, rfl⟩
  have hagree : Agree id (front.length + 0) s.stream t.stream := by
    rw [hs, ht]
    exact TokenQueue.agree_append_same front .none
  obtain ⟨t', hother, hahead, halike⟩ := hmatch (Nat.le_refl _) (Nat.le_refl 0) ⟨hagree, hlevel⟩
  rw [Decl.move_id] at hother
  rw [ht] at hahead
  exact ⟨t', hother, TokenQueue.apart_split hahead, halike.level⟩

theorem many_declarations_alike {pieces : List (List Token)}
    (hpieces : ∀ piece ∈ pieces, Yields (.category .declaration) (piece.map Token.kind))
    (heof : ∀ token ∈ pieces.flatten ++ rest, token.kind ≠ .eof)
    (hs : s.stream = ⟨pieces.flatten ++ rest, finish⟩) (ht : t.stream = ⟨pieces.flatten, last⟩)
    (hlevel : Level .exact s t) {n m : Nat} (hn : pieces.flatten.length ≤ n)
    (hm : pieces.flatten.length ≤ m) {decls : List Decl} {u : ParseState TokenQueue}
    (hrun : many Nonterminal.declaration.starts declaration n s = .ok decls u) :
    ∃ before after v t', decls = before ++ after ∧ Items DerivesDecl v after u ∧
      many Nonterminal.declaration.starts declaration m t = .ok before t' ∧
      t'.stream = ⟨[], last⟩ ∧ Level .exact v t' := by
  induction pieces generalizing s t n m decls with
  | nil =>
    have hend : Nonterminal.declaration.starts t.token.kind = false := by
      rw [ParseState.token, ht]
      rfl
    have hafter := many_ok (R := DerivesDecl) (fun _ _ _ _ h => declaration_sound h) n decls hrun
    exact ⟨[], decls, s, t, rfl, hafter, many_stop hend m, ht, hlevel⟩
  | cons piece pieces ih =>
    obtain ⟨hpiece, hlater⟩ := List.forall_mem_cons.1 hpieces
    rw [List.flatten_cons, List.append_assoc] at heof hs
    rw [List.flatten_cons] at ht
    obtain ⟨token, tokens, rfl, hstart⟩ := declaration_starts hpiece
    rw [List.flatten_cons, List.length_append, List.length_cons] at hn hm
    obtain ⟨n, rfl⟩ := Nat.exists_eq_add_one_of_ne_zero (n := n) (by omega)
    obtain ⟨m, rfl⟩ := Nat.exists_eq_add_one_of_ne_zero (n := m) (by omega)
    have hstart₁ : Nonterminal.declaration.starts s.token.kind := by
      rw [ParseState.token, hs]
      exact hstart
    have hstart₂ : Nonterminal.declaration.starts t.token.kind := by
      rw [ParseState.token, ht]
      exact hstart
    obtain ⟨decl, s', decls, hdecl, hrest, rfl⟩ := (many_next_ok hstart₁).1 hrun
    obtain ⟨hs', t', hdecl', ht', hlevel'⟩ :=
      declaration_alike hpiece heof hs ht hlevel hdecl
    obtain ⟨before, after, v, t'', rfl, hafter, hrest', hend, hlevel''⟩ :=
      ih (n := n) (m := m) hlater (fun token h => heof token (List.mem_append_right _ h)) hs' ht'
        hlevel' (by omega) (by omega) hrest
    exact ⟨decl :: before, after, v, t'', rfl, hafter,
      (many_next_ok hstart₂).2 ⟨decl, t', before, hdecl', hrest', rfl⟩, hend, hlevel''⟩

end Parser

/-- Both programs are read without a diagnostic, and the second starts with the declarations of the
first. -/
structure Parsed.Continues (p q : Parsed) (before after : List Decl) : Prop where
  clean : p.log = []
  alsoClean : q.log = []
  tree : ∃ node, p.tree = .program node before
  longer : ∃ node, q.tree = .program node (before ++ after)
  symbols : p.symbols <+: q.symbols

theorem parse_front {front rest : List Token}
    (hfront : Yields (.category .declarations) (front.map Token.kind))
    (heof : ∀ token ∈ front ++ rest, token.kind ≠ .eof)
    (hlog : (parseTokens (front ++ rest)).log = []) :
    ∃ before after,
      (parseTokens front).Continues (parseTokens (front ++ rest)) before after := by
  obtain ⟨pieces, rfl, hpieces⟩ := yields_repeated_tokens.1 (yields_category.1 hfront)
  cases hrun : Parser.program (.start (TokenQueue.ofTokens (pieces.flatten ++ rest))) with
  | error d s =>
    rw [parseTokens, parse_of_error hrun] at hlog
    simp at hlog
  | ok tree s =>
    have hlong : parseTokens (pieces.flatten ++ rest) = _ := parse_of_ok hrun
    rw [hlong] at hlog
    obtain ⟨decls, u, hdecls, _, rfl, rfl⟩ := Parser.program_ok.1 hrun
    have hlevel : Level .exact (.start (TokenQueue.ofTokens (pieces.flatten ++ rest)))
        (.start (TokenQueue.ofTokens pieces.flatten)) := ⟨rfl, rfl, rfl⟩
    have hlength : pieces.flatten.length ≤ (pieces.flatten ++ rest).length := by
      rw [List.length_append]
      exact Nat.le_add_right _ _
    obtain ⟨before, after, v, t, rfl, hafter, halone, hend, _, hscope, hsame⟩ :=
      Parser.many_declarations_alike hpieces heof rfl rfl hlevel hlength (Nat.le_refl _) hdecls
    have hkind : t.token.kind = .eof := by
      rw [ParseState.token, hend]
      rfl
    have hshort : parseTokens pieces.flatten = _ :=
      parse_of_ok (Parser.program_ok.2 ⟨before, t, halone, hkind, rfl, rfl⟩)
    obtain ⟨hclean, hsymbols, _⟩ :=
      @Parser.Items.scoped TokenQueue _ v u _ (fun _ => True) after hafter hlog (List.prefix_refl _)
    rw [← hscope] at hsymbols
    rw [hlong, hshort]
    exact ⟨before, after, hsame.trans hclean, hlog, ⟨_, rfl⟩, ⟨_, rfl⟩, hsymbols⟩

/-! ## Symbols -/

theorem SymbolTable.lt_length {symbols : SymbolTable} {id : SymbolId}
    (h : (symbols.get id).isError = false) : id < symbols.length := by
  refine Nat.lt_of_not_le fun hid => ?_
  have habsent : symbols.get id = Symbol.absent := by
    rw [get, List.getD_eq_getElem?_getD, List.getElem?_eq_none hid]
    rfl
  rw [habsent] at h
  exact absurd h (by decide)

section

variable {symbols : SymbolTable} {isName : String → Prop} {reach : List SymbolId}

theorem Decl.Scoped.symbol_lt {decl : Decl} (h : decl.Scoped symbols reach) :
    decl.symbol < symbols.length := by
  apply SymbolTable.lt_length
  cases decl with
  | var decl | array decl => rw [Decl.symbol, Symbol.isError, h]
  | func definition => rw [Decl.symbol, Symbol.isError, h.kind]

theorem Decl.Scoped.uses_lt {decl : Decl} (h : decl.Scoped symbols reach)
    (hreach : ∀ id ∈ reach, id < symbols.length) : ∀ id ∈ decl.uses, id < symbols.length := by
  cases decl with
  | var decl | array decl => exact List.forall_mem_singleton.2 h.symbol_lt
  | func definition =>
    have hparams : ∀ id ∈ definition.params, id < symbols.length := by
      intro id hid
      exact SymbolTable.lt_length (by rw [Symbol.isError, (h.params id hid).1])
    have hlocals : ∀ id ∈ definition.body.locals.map VarDecl.symbol, id < symbols.length := by
      intro id hid
      exact SymbolTable.lt_length (by rw [Symbol.isError, h.locals id hid])
    have hmentions : ∀ id ∈ definition.body.mentions, id < symbols.length := by
      intro id hid
      rcases h.mentions id hid with hid | hid | hid
      · exact hparams id hid
      · exact hlocals id hid
      · exact hreach id hid
    have hinside := List.forall_mem_append.2 ⟨List.forall_mem_append.2 ⟨hparams, hlocals⟩, hmentions⟩
    exact List.forall_mem_cons.2 ⟨Decl.Scoped.symbol_lt h, hinside⟩

theorem Scoped.uses_lt {decls : List Decl} (h : Scoped symbols isName reach decls)
    (hreach : ∀ id ∈ reach, id < symbols.length) :
    ∀ decl ∈ decls, ∀ id ∈ decl.uses, id < symbols.length := by
  induction h with
  | nil => exact fun _ h => absurd h List.not_mem_nil
  | @cons reach decl decls _ _ hdecl _ ih =>
    have hreach : ∀ id ∈ decl.symbol :: reach, id < symbols.length :=
      List.forall_mem_cons.2 ⟨hdecl.symbol_lt, hreach⟩
    exact List.forall_mem_cons.2 ⟨hdecl.uses_lt hreach, ih hreach⟩

end

theorem parse_uses_coincide {σ : Type} [TokenStream σ] {stream : σ} {node : Node}
    {decls : List Decl} {others : SymbolTable} (hlog : (parse stream).log = [])
    (htree : (parse stream).tree = .program node decls)
    (hothers : (parse stream).symbols <+: others) :
    ∀ decl ∈ decls, Coincide id (parse stream).symbols others decl.uses := by
  obtain ⟨_, _, htree', hbuiltins, hscoped⟩ :=
    @parse_scoped σ _ stream hlog (fun _ => True) fun _ _ _ => trivial
  cases htree.symm.trans htree'
  have hreach : ∀ id ∈ Scope.initial.current.ids, id < (parse stream).symbols.length := by
    intro id hid
    exact Nat.lt_of_lt_of_le (Scope.initial_declarable id hid).1 hbuiltins.length_le
  intro decl hdecl id hid
  exact SymbolTable.get_of_prefix hothers (hscoped.uses_lt hreach decl hdecl id hid)

/-! ## Checking and lowering -/

theorem Decl.flatMap_entries_eq {symbols others : SymbolTable} {decls : List Decl} (entry : String)
    (h : ∀ decl ∈ decls, Coincide id symbols others decl.uses) :
    decls.flatMap (Decl.entries others entry) = decls.flatMap (Decl.entries symbols entry) := by
  have hmove : TypeEntry.move id = id := by
    funext x
    simp [TypeEntry.move, funext Diagnostic.move_id]
  have hentries := flatMap_entries_move entry h
  rwa [funext Decl.move_id, List.map_id', hmove, List.map_id] at hentries

theorem Decl.entry_mem {symbols : SymbolTable} {entry : String} {decl : Decl} {e : Expr}
    (h : e ∈ decl.exprs) : e.entry symbols ∈ decl.entries symbols entry := by
  cases decl with
  | var | array => exact absurd h List.not_mem_nil
  | func definition =>
    have hbody : e.entry symbols ∈ definition.body.entries (definition.promise symbols) :=
      StmtPhrase.entry_mem (.block definition.body) e h
    exact List.mem_append_left _ hbody

section

variable {σ τ : Type} [TokenStream σ] [TokenStream τ] {stream : σ} {longer : τ}
  {before after : List Decl} {entry : String}

namespace Parsed.Continues

theorem coincide (h : (parse stream).Continues (parse longer) before after) :
    ∀ decl ∈ before, Coincide id (parse stream).symbols (parse longer).symbols decl.uses := by
  obtain ⟨node, htree⟩ := h.tree
  exact parse_uses_coincide h.clean htree h.symbols

theorem check_clean (h : (parse stream).Continues (parse longer) before after)
    (hcheck : (check (parse longer).symbols entry (parse longer).tree).log = []) :
    (check (parse stream).symbols entry (parse stream).tree).log = [] := by
  obtain ⟨node, htree⟩ := h.tree
  obtain ⟨node', hlonger⟩ := h.longer
  rw [hlonger] at hcheck
  have hdecls := (Silent.append.1 (Silent.of_filterMap hcheck)).1
  rw [List.flatMap_append, Decl.flatMap_entries_eq entry h.coincide] at hdecls
  have hnode : Silent [TypeEntry.silent node .void] := List.forall_mem_singleton.2 rfl
  rw [htree]
  exact List.filterMap_eq_nil_iff.2 (Silent.append.2 ⟨(Silent.append.1 hdecls).1, hnode⟩)

theorem types (h : (parse stream).Continues (parse longer) before after) :
    ∀ decl ∈ before, (Environment.ofStream stream entry).types.Coincide
      (Environment.ofStream longer entry).types decl.exprs := by
  obtain ⟨node, htree⟩ := h.tree
  obtain ⟨node', hlonger⟩ := h.longer
  intro decl hdecl e he
  have hentry : e.entry (parse stream).symbols ∈
      before.flatMap (Decl.entries (parse stream).symbols entry) :=
    List.mem_flatMap.2 ⟨decl, hdecl, Decl.entry_mem he⟩
  have hshort : e.entry (parse stream).symbols ∈
      (parse stream).tree.entries (parse stream).symbols entry := by
    rw [htree]
    exact List.mem_append_left _ hentry
  have hlong : e.entry (parse stream).symbols ∈
      (parse longer).tree.entries (parse longer).symbols entry := by
    rw [hlonger, Tree.entries, List.flatMap_append, Decl.flatMap_entries_eq entry h.coincide]
    exact List.mem_append_left _ (List.mem_append_left _ hentry)
  have hid : (e.entry (parse stream).symbols).id = e.node.id := Expr.entry_id _ e
  rw [← hid]
  exact (check_get? (parse_numbers (parse_isError_of_clean h.alsoClean)).nodup hlong).trans
    (check_get? (parse_numbers (parse_isError_of_clean h.clean)).nodup hshort).symm

theorem lower (h : (parse stream).Continues (parse longer) before after) {program : Program}
    (hlower : (Environment.ofStream longer entry).lower (parse longer).tree = .ok program) :
    ∃ shorter, (Environment.ofStream stream entry).lower (parse stream).tree = .ok shorter ∧
      shorter.code <+: program.code ∧ shorter.data <+: program.data := by
  obtain ⟨node, htree⟩ := h.tree
  obtain ⟨node', hlonger⟩ := h.longer
  rw [hlonger] at hlower
  obtain ⟨segments, _, s, hall, rfl⟩ := Environment.lower_ok.1 hlower
  obtain ⟨first, storage, t, rest, hfirst, _, rfl⟩ := Environment.lowerOnto_append_ok.1 hall
  have hbefore : (Environment.ofStream longer entry).lower (.program node before) =
      .ok ⟨first.data, first.code, t.labels, t.depth⟩ :=
    Environment.lower_ok.2 ⟨first, storage, t, hfirst, rfl⟩
  have hentry : (Environment.ofStream longer entry).entry =
      (Environment.ofStream stream entry).entry := rfl
  have hmove : (Environment.ofStream longer entry).lower ((Tree.program node before).move id) =
      ((Environment.ofStream stream entry).lower (.program node before)).mapError (Fault.move id) :=
    Environment.lower_move hentry h.coincide h.types
  rw [Tree.move_id, hbefore] at hmove
  rw [htree]
  cases hshort : (Environment.ofStream stream entry).lower (.program node before) with
  | error fault =>
    rw [hshort] at hmove
    nomatch hmove
  | ok shorter =>
    rw [hshort] at hmove
    cases hmove
    exact ⟨_, rfl, List.prefix_append _ _, List.prefix_append _ _⟩

end Parsed.Continues

end

/-- The program that tokens are lowered to, without the routines that every program gets. -/
def programOf (tokens : List Token) (entry : String) : Except Fault Program :=
  (Environment.ofStream (TokenQueue.ofTokens tokens) entry).lower (parseTokens tokens).tree

/-- If tokens that start with complete declarations compile, then these compile alone, and their code
and data are what the whole starts with. -/
theorem earlier_code_kept {front rest : List Token} {options : Options} {compiled : Compiled}
    (hfront : ∀ token ∈ front, token.kind ≠ .eof) (hrest : ∀ token ∈ rest, token.kind ≠ .eof)
    (hdecls : Yields (.category .declarations) (front.map Token.kind))
    (hcompile : compileTokens (front ++ rest) options = .ok compiled) :
    ∃ alone, compileTokens front options = .ok alone ∧
      (options.checkOnly = true → alone.assembly = none ∧ compiled.assembly = none) ∧
      (options.checkOnly = false → ∃ shorter program,
        programOf front options.entry = .ok shorter ∧ alone.assembly = some shorter.text ∧
        programOf (front ++ rest) options.entry = .ok program ∧
        compiled.assembly = some program.text ∧
        shorter.code <+: program.code ∧ shorter.data <+: program.data) := by
  obtain ⟨hparse, hcheck, _, houtput⟩ := compile_ok.1 hcompile
  obtain ⟨before, after, hcontinues⟩ :=
    parse_front hdecls (List.forall_mem_append.2 ⟨hfront, hrest⟩) hparse
  have hclean := hcontinues.check_clean hcheck
  rcases houtput with ⟨honly, hnone⟩ | ⟨hall, program, hlower, htext⟩
  · refine ⟨⟨none, (parseTokens front).nodeCount⟩, compile_ok.2 ?_, ?_, ?_⟩
    · exact ⟨hcontinues.clean, hclean, rfl, .inl ⟨honly, rfl⟩⟩
    · exact fun _ => ⟨rfl, hnone⟩
    · exact fun h => absurd (honly.symm.trans h) nofun
  · obtain ⟨shorter, hshorter, hcode, hdata⟩ := hcontinues.lower hlower
    refine ⟨⟨some shorter.text, (parseTokens front).nodeCount⟩, compile_ok.2 ?_, ?_, ?_⟩
    · exact ⟨hcontinues.clean, hclean, rfl, .inr ⟨hall, shorter, hshorter, rfl⟩⟩
    · exact fun h => absurd (hall.symm.trans h) nofun
    · exact fun _ => ⟨shorter, program, hshorter, rfl, hlower, htext, hcode, hdata⟩

def endless : List Token :=
  tokensOf "var x : int; func main() : void \x7b while true \x7b let x = 1; \x7d \x7d"

def increasing : List Token :=
  tokensOf "func f() : int \x7b while true \x7b let x = x + 1; \x7d return x; \x7d"

/-- Both functions have a loop, but the labels of the first do not depend on the second. -/
theorem endless_code_kept :
    ∃ shorter program, programOf (sourceOf endless) "main" = .ok shorter ∧
      programOf (sourceOf endless ++ sourceOf increasing) "main" = .ok program ∧
      shorter.code <+: program.code ∧ shorter.data <+: program.data := by
  have haccepted : (parseTokens endless).tree.isError = false := by decide +kernel
  obtain ⟨pieces, hpieces, hdeclarations⟩ := parseTokens_accepts_iff.1 haccepted
  have hdecls : Yields (.category .declarations) ((sourceOf endless).map Token.kind) :=
    .category (yields_repeated_tokens.2
      ⟨pieces, hpieces, fun piece h => (hdeclarations piece h).sentence⟩)
  have hcompiles : (compileTokens (sourceOf endless ++ sourceOf increasing) {}).isOk = true := by
    decide +kernel
  cases hcompile : compileTokens (sourceOf endless ++ sourceOf increasing) {} with
  | error failure =>
    rw [hcompile] at hcompiles
    nomatch hcompiles
  | ok compiled =>
    obtain ⟨_, _, _, hkept⟩ := earlier_code_kept (fun _ => sourceOf_ne_eof)
      (fun _ => sourceOf_ne_eof) hdecls hcompile
    obtain ⟨shorter, program, hshorter, _, hprogram, _, hcode, hdata⟩ := hkept rfl
    exact ⟨shorter, program, hshorter, hprogram, hcode, hdata⟩

end MipsCompiler
