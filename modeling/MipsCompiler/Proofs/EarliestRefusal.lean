import MipsCompiler.Proofs.Grammar.Acceptance
import MipsCompiler.Proofs.Grammar.Refusal

set_option autoImplicit false

/-!
# Syntax errors are reported at the earliest token

A parse that is given up names the first token with which the tokens before it cannot be continued to
a program, or the first number out of range. The tokens before it can always be continued, because the
rules predict what is passed. With it they cannot: a program that began with them would be accepted,
and its tokens would settle another outcome.
-/

namespace MipsCompiler

open TokenStream (Between)

/-- The kinds of the tokens of a program, its end marker included. -/
def IsProgram (kinds : List TokenKind) : Prop :=
  Yields (.sequence [.category .declarations, .token .eof]) kinds

/-- The kinds can be continued to a program. -/
def Viable (kinds : List TokenKind) : Prop :=
  ∃ more, IsProgram (kinds ++ more)

/-- A number may come next as the extent of an array. -/
def ExtentNext (kinds : List TokenKind) : Prop :=
  ∃ declared begun rest, kinds = declared ++ begun ∧ Yields (.category .declarations) declared ∧
    Yields (.category .arrayDecl) (begun ++ .integer :: rest)

/-- A number behind these tokens that is too large for its place. -/
def Token.OutOfRange (before : List Token) (token : Token) : Prop :=
  (token.kind = .float ∧ Single.ofText? token.lexeme = none) ∨
    (token.kind = .integer ∧ ExtentNext (before.map Token.kind) ∧
      Numeral.extent? token.lexeme = none)

/-- No token could be reported before this one: those in front of it begin a program and hold no
number out of range. With it they begin none, or it is itself a number out of range. What is reported
as found is its kind or its text. -/
structure EarliestFault (before : List Token) (token : Token) (found : String) : Prop where
  viable : Viable (before.map Token.kind)
  in_range : ∀ front x behind, before = front ++ x :: behind → ¬ x.OutOfRange front
  fault : (¬ Viable ((before ++ [token]).map Token.kind) ∧ found = token.kind.name) ∨
    (Viable ((before ++ [token]).map Token.kind) ∧ token.OutOfRange before ∧ found = token.lexeme)

theorem Yields.ne_eof {c : Category} {kinds : List TokenKind} (h : Yields (.category c) kinds) :
    ∀ kind ∈ kinds, kind ≠ .eof := by
  have hrules (c : Category) (_ : true = true) :
      c.rule.uses (fun _ => true) fun kind => decide (kind ≠ .eof) := by
    cases c <;> rfl
  intro kind hkind
  exact of_decide_eq_true (h.uses hrules rfl kind hkind)

/-! ## Declarations -/

theorem Ebnf.StartsIn.head_eq {e : Ebnf} {kind : TokenKind} {kinds : List TokenKind}
    (hstarts : e.StartsIn [kind]) (h : Yields e kinds) : kinds.head? = some kind := by
  obtain ⟨first, rest, rfl, hfirst⟩ := hstarts _ h
  exact congrArg some (List.mem_singleton.1 hfirst)

theorem Yields.starts_arrayKw {kinds : List TokenKind} (h : Yields (.category .arrayDecl) kinds) :
    kinds.head? = some .arrayKw := by
  have hstarts : (Ebnf.category .arrayDecl).StartsIn [.arrayKw] :=
    .category (.sequence (.token List.mem_cons_self))
  exact hstarts.head_eq h

theorem Yields.arrayDecl {kinds : List TokenKind} (h : Yields (.category .declaration) kinds)
    (hfirst : kinds.head? = some .arrayKw) : Yields (.category .arrayDecl) kinds := by
  have hvariable : (Ebnf.category .variableDecl).StartsIn [.varKw] :=
    .category (.sequence (.token List.mem_cons_self))
  have hfunction : (Ebnf.category .functionDef).StartsIn [.funcKw] :=
    .category (.sequence (.token List.mem_cons_self))
  obtain ⟨e, hmem, he⟩ := yields_choice.1 (yields_category.1 h)
  simp only [List.mem_cons, List.not_mem_nil, or_false] at hmem
  rcases hmem with rfl | rfl | rfl
  · cases (hvariable.head_eq he).symm.trans hfirst
  · exact he
  · cases (hfunction.head_eq he).symm.trans hfirst

namespace Parser

section

variable {σ : Type} [TokenStream σ] {s t : ParseState σ} {d : Diagnostic} {n : Nat}

/-- Declarations that are read one after the other, each of them predicted. -/
structure ReadsDecls (s : ParseState σ) (pieces : List (List Token)) (t : ParseState σ) : Prop where
  quiet : s.Quiet t
  between : Between s.stream pieces.flatten t.stream
  declarations : ∀ piece ∈ pieces, IsDeclaration piece
  predicts : ∀ rest o, o.Sees rest t.token.kind →
    Predicts (.repeated (.category .declaration)) rest o →
    Predicts (.repeated (.category .declaration)) (pieces.flatten.map Token.kind ++ rest) o

theorem ReadsDecls.nil : ReadsDecls s [] s :=
  ⟨fun h => h, .nil, fun _ h => absurd h List.not_mem_nil, fun _ _ _ h => h⟩

theorem ReadsDecls.cons {u : ParseState σ} {pieces : List (List Token)}
    (hstarts : Nonterminal.declaration.starts s.token.kind)
    (h : PassesBy s.token.DeclFits (.category .declaration) s t) (hrest : ReadsDecls t pieces u) :
    ∃ piece, ReadsDecls s (piece :: pieces) u := by
  obtain ⟨hquiet, piece, hbetween, hfits, hpredicts⟩ := h
  have hsentence := (hpredicts.yields rfl).1 rfl
  have hdeclaration : IsDeclaration piece := by
    refine ⟨hsentence, fun x hx => (hfits x hx).1, fun harray x hx => (hfits x hx).2 ?_⟩
    have hspans : Spans (fun _ => True) (.category .arrayDecl) s.stream t.stream :=
      ⟨piece, hbetween, harray, fun _ _ => trivial⟩
    exact hspans.next_kind rfl
  refine ⟨piece, fun hlog => hrest.quiet (hquiet hlog),
    TokenStream.between_append.2 ⟨_, hbetween, hrest.between⟩,
    List.forall_mem_cons.2 ⟨hdeclaration, hrest.declarations⟩, fun rest o hsees hothers => ?_⟩
  have hbehind := hrest.predicts rest o hsees hothers
  rw [List.flatten_cons, List.map_append, List.append_assoc]
  refine .more hstarts hpredicts hbetween.first_kind hbehind ?_
  have hfirst : (Outcome.done u.token.kind).Sees (pieces.flatten.map Token.kind) t.token.kind :=
    hrest.between.first_kind
  exact hfirst.append hsees

theorem declarations_ok {decls : List Decl} (hn : TokenStream.remaining s.stream ≤ n)
    (h : many Nonterminal.declaration.starts declaration n s = .ok decls t) :
    (∃ pieces, ReadsDecls s pieces t) ∧ Nonterminal.declaration.starts t.token.kind = false := by
  induction n generalizing s decls with
  | zero =>
    obtain ⟨_, rfl⟩ := pure_ok.1 h
    have heof : t.token.kind = .eof := TokenStream.peek_eof_of_remaining (Nat.le_zero.1 hn)
    exact ⟨⟨[], .nil⟩, heof ▸ rfl⟩
  | succ n ih =>
    cases hstarts : Nonterminal.declaration.starts s.token.kind with
    | false =>
      rw [many_stop hstarts] at h
      cases h
      exact ⟨⟨[], .nil⟩, hstarts⟩
    | true =>
      simp only [many, peek_bind, hstarts, if_true, bind_ok, pure_ok] at h
      obtain ⟨decl, u, hdecl, rest, _, hrest, _, rfl⟩ := h
      have hpasses := (declaration_tracks s.token).ok hn rfl hdecl
      have hlt := ((hpasses.spans rfl).starts Nonterminal.declaration_startsIn).2
      obtain ⟨⟨pieces, hpieces⟩, hend⟩ := ih (by omega) hrest
      obtain ⟨piece, hpiece⟩ := hpieces.cons hstarts hpasses
      exact ⟨⟨piece :: pieces, hpiece⟩, hend⟩

theorem declarations_error (hn : TokenStream.remaining s.stream ≤ n)
    (h : many Nonterminal.declaration.starts declaration n s = .error d t) :
    ∃ pieces u, ReadsDecls s pieces u ∧ Nonterminal.declaration.starts u.token.kind ∧
      FailsBy u.token.DeclFits (.category .declaration) u d t := by
  induction n generalizing s with
  | zero => cases h
  | succ n ih =>
    cases hstarts : Nonterminal.declaration.starts s.token.kind with
    | false =>
      rw [many_stop hstarts] at h
      cases h
    | true =>
      simp only [many, peek_bind, hstarts, if_true] at h
      rcases bind_error.1 h with hdecl | ⟨decl, u, hdecl, hrest⟩
      · exact ⟨[], s, .nil, hstarts, (declaration_tracks s.token).error hn rfl hdecl⟩
      · have hpasses := (declaration_tracks s.token).ok hn rfl hdecl
        have hlt := ((hpasses.spans rfl).starts Nonterminal.declaration_startsIn).2
        rcases bind_error.1 hrest with hrest | ⟨_, _, _, hrest⟩
        · obtain ⟨pieces, v, hpieces, hfails⟩ := ih (by omega) hrest
          obtain ⟨piece, hpiece⟩ := hpieces.cons hstarts hpasses
          exact ⟨piece :: pieces, v, hpiece, hfails⟩
        · cases hrest

theorem program_fails (h : program s = .error d t) :
    ∃ (pieces : List (List Token)) (u : ParseState σ) (front : List Token) (place : σ)
      (last : List TokenKind) (o : Outcome),
      s.Quiet t ∧ ReadsDecls s pieces u ∧ Between u.stream front place ∧
      (∀ x ∈ front, u.token.DeclFits x) ∧ GivesUp u.token.DeclFits place d last o ∧
      (front = [] ∧ last = [] ∨
        ∃ more, Yields (.category .declaration) (front.map Token.kind ++ last ++ more)) ∧
      Predicts (.sequence [.category .declarations, .token .eof])
        ((pieces.flatten ++ front).map Token.kind ++ last) o := by
  rcases program_error.1 h with hdecls | ⟨decls, hdecls, hkind, rfl⟩
  · obtain ⟨pieces, u, hpieces, hstarts, hquiet, front, place, last, o, hbetween, hfits, hgives,
      hpredicts⟩ := declarations_error (Nat.le_refl _) hdecls
    have hsees : o.Sees (front.map Token.kind ++ last) u.token.kind := by
      rw [Outcome.Sees, List.append_assoc, hgives.append_shown]
      exact hbetween.first_kind
    have hbroken : Predicts (.repeated (.category .declaration)) (front.map Token.kind ++ last) o :=
      .broken hstarts hpredicts hsees hgives.isDone
    have hdeclarations := Predicts.category (c := .declarations) (hpieces.predicts _ _ hsees hbroken)
    refine ⟨pieces, u, front, place, last, o, fun hlog => hquiet (hpieces.quiet hlog), hpieces,
      hbetween, hfits, hgives, .inr (hpredicts.yields rfl).2, ?_⟩
    rw [List.map_append, List.append_assoc]
    exact .stop hdeclarations hgives.isDone
  · obtain ⟨⟨pieces, hpieces⟩, hend⟩ := declarations_ok (Nat.le_refl _) hdecls
    have hdeclarations := Predicts.category (c := .declarations)
      (hpieces.predicts [] (.done t.token.kind) rfl (.none hend))
    have hwrong : Predicts (.sequence [.token .eof]) [] (.refused t.token.kind) :=
      .stop (.wrong hkind) rfl
    refine ⟨pieces, t, [], t.stream, [], _, hpieces.quiet, hpieces, .nil,
      fun _ h => absurd h List.not_mem_nil, .refused _ rfl, .inl ⟨rfl, rfl⟩, ?_⟩
    rw [List.append_nil] at hdeclarations
    rw [List.append_nil pieces.flatten]
    exact .cons hdeclarations hwrong rfl

end

end Parser

/-! ## Sentences of the grammar -/

/-- A token of the kind whose text is in range as any number. -/
def TokenKind.sample (kind : TokenKind) : Token :=
  Token.normalized ⟨kind, "", Position.start⟩

theorem TokenKind.map_sample_kind (kinds : List TokenKind) :
    (kinds.map TokenKind.sample).map Token.kind = kinds := by
  rw [List.map_map]
  exact List.map_id kinds

theorem TokenKind.sample_ne_eof {kinds : List TokenKind} (h : ∀ kind ∈ kinds, kind ≠ .eof) :
    ∀ x ∈ kinds.map TokenKind.sample, x.kind ≠ .eof := by
  intro x hx
  obtain ⟨kind, hkind, rfl⟩ := List.mem_map.1 hx
  exact h kind hkind

theorem Yields.declaration_ended {kinds more : List TokenKind}
    (h : Yields (.category .declaration) kinds)
    (h' : Yields (.category .declaration) (kinds ++ more)) : more = [] := by
  have heof := TokenKind.sample_ne_eof h'.ne_eof
  rw [← TokenKind.map_sample_kind kinds] at h
  rw [← TokenKind.map_sample_kind (kinds ++ more)] at h'
  have heq : kinds.map TokenKind.sample ++ more.map TokenKind.sample =
      (kinds ++ more).map TokenKind.sample ++ [] := by
    rw [List.map_append, List.append_nil]
  have hfree := declaration_prefix_free h h' heq (by rwa [← List.map_append])
  have hlength := congrArg List.length hfree
  simp only [List.length_map, List.length_append] at hlength
  exact List.eq_nil_of_length_eq_zero (by omega)

theorem Yields.predicts {kinds : List TokenKind} (h : Yields (.category .declarations) kinds) :
    Predicts (.category .declarations) kinds (.done .eof) := by
  have hsource : sourceOf (kinds.map TokenKind.sample) = kinds.map TokenKind.sample := by
    have hbetween := TokenQueue.between_append (kinds.map TokenKind.sample) [] Position.start
      (TokenKind.sample_ne_eof h.ne_eof)
    rw [List.append_nil] at hbetween
    exact (TokenQueue.between_source.1 ⟨_, hbetween, rfl⟩).symm
  -- the parser accepts a sentence whose numbers are in range
  have haccepts : (parseTokens (kinds.map TokenKind.sample)).tree.isError = false := by
    obtain ⟨pieces, rfl, hpieces⟩ := yields_repeated.1 (yields_category.1 h)
    refine parseTokens_accepts_iff.2 ⟨pieces.map (List.map TokenKind.sample), ?_, ?_⟩
    · rw [hsource, List.map_flatten]
    · intro piece hpiece
      obtain ⟨kinds, hkinds, rfl⟩ := List.mem_map.1 hpiece
      have hsentence := hpieces kinds hkinds
      rw [← TokenKind.map_sample_kind kinds] at hsentence
      have hdeclaration := IsDeclaration.normalized hsentence
      rwa [List.map_map] at hdeclaration
  cases hrun : Parser.program (.start (TokenQueue.ofTokens (kinds.map TokenKind.sample))) with
  | error d t =>
    rw [parseTokens, parse_of_error hrun] at haccepts
    cases haccepts
  | ok tree t =>
    obtain ⟨decls, u, hdecls, hend, _⟩ := Parser.program_ok.1 hrun
    obtain ⟨⟨pieces, hpieces⟩, hstop⟩ := Parser.declarations_ok (Nat.le_refl _) hdecls
    have htokens := TokenQueue.between_source.1 ⟨_, hpieces.between, hend⟩
    have hpredicts := hpieces.predicts [] (.done u.token.kind) rfl (.none hstop)
    rw [htokens, hsource, TokenKind.map_sample_kind, List.append_nil, hend] at hpredicts
    exact .category hpredicts

theorem IsProgram.predicts {kinds : List TokenKind} (h : IsProgram kinds) :
    Predicts (.sequence [.category .declarations, .token .eof]) kinds (.done .eof) := by
  obtain ⟨front, rest, rfl, hfront, hrest⟩ := yields_cons.1 h
  obtain ⟨last, behind, rfl, hlast, hbehind⟩ := yields_cons.1 hrest
  obtain rfl := yields_token.1 hlast
  obtain rfl := yields_nil.1 hbehind
  have hend : Predicts (.sequence [.token .eof]) ([.eof] ++ []) (.done .eof) :=
    .cons .token .nil rfl
  exact .cons hfront.predicts hend rfl

theorem Predicts.viable {passed : List TokenKind} {o : Outcome}
    (h : Predicts (.sequence [.category .declarations, .token .eof]) passed o) : Viable passed :=
  (h.yields rfl).2

theorem Predicts.not_viable {passed : List TokenKind} {next : TokenKind}
    (h : Predicts (.sequence [.category .declarations, .token .eof]) passed (.refused next)) :
    ¬ Viable (passed ++ [next]) := by
  rintro ⟨more, hmore⟩
  have heq : passed ++ (Outcome.refused next).shown ++ (more ++ [.eof]) =
      passed ++ [next] ++ more ++ (Outcome.done .eof).shown ++ [] := by
    simp [Outcome.shown]
  have hrefused : Outcome.refused next ≠ .halted := Outcome.noConfusion
  have hdone : Outcome.done .eof ≠ .halted := Outcome.noConfusion
  cases (h.unique hmore.predicts hrefused hdone heq).2

/-! ## Numbers out of range -/

theorem Yields.of_arrayDecl {kinds : List TokenKind} (h : Yields (.category .arrayDecl) kinds) :
    Yields (.category .declaration) kinds :=
  .category (.choice (by simp) h)

/-- The tokens of whole declarations followed by a part of another, whose numbers are in range. -/
structure FitsSoFar (pieces : List (List Token)) (first : Token) (front : List Token) : Prop where
  declared : ∀ piece ∈ pieces, IsDeclaration piece
  fits : ∀ x ∈ front, first.DeclFits x
  head : ∀ x ∈ front.head?, x = first
  begun : front = [] ∨ ∃ more, Yields (.category .declaration) (front.map Token.kind ++ more)

namespace FitsSoFar

variable {pieces : List (List Token)} {first x : Token} {front behind : List Token}

theorem float (h : FitsSoFar pieces first front) (hx : x ∈ pieces.flatten ++ front) :
    x.FloatFits := by
  rcases List.mem_append.1 hx with hx | hx
  · obtain ⟨piece, hpiece, hx⟩ := List.mem_flatten.1 hx
    exact (h.declared piece hpiece).floats x hx
  · exact (h.fits x hx).1

theorem first_extent {begun : List Token} {rest : List TokenKind} (h : FitsSoFar pieces first front)
    (heq : pieces.flatten ++ front = begun ++ x :: behind)
    (harray : Yields (.category .arrayDecl) (begun.map Token.kind ++ x.kind :: rest)) :
    x.ExtentFits := by
  have harrayKw : ((begun ++ x :: behind).map Token.kind).head? = some .arrayKw := by
    have hstarts := harray.starts_arrayKw
    cases begun <;> exact hstarts
  cases pieces with
  | nil =>
    obtain rfl : front = begun ++ x :: behind := heq
    refine (h.fits x (by simp)).2 ?_
    obtain ⟨token, htoken, hkind⟩ := Option.map_eq_some_iff.1 (List.head?_map ▸ harrayKw)
    rw [← h.head token htoken, hkind]
  | cons piece pieces =>
    have hpiece := h.declared piece List.mem_cons_self
    rw [List.flatten_cons, List.append_assoc] at heq
    rcases List.append_eq_append_iff.1 heq with ⟨tail, rfl, _⟩ | ⟨tail, rfl, htail⟩
    · -- the first declaration would go on behind its end
      rw [List.map_append, List.append_assoc] at harray
      have hnil := hpiece.sentence.declaration_ended harray.of_arrayDecl
      simp at hnil
    · cases tail with
      | nil =>
        have hsentence := hpiece.sentence
        rw [List.append_nil] at hsentence
        cases hsentence.declaration_ended harray.of_arrayDecl
      | cons token tail =>
        obtain ⟨rfl, _⟩ := List.cons.inj htail
        have hhead : ((begun ++ x :: tail).map Token.kind).head? = some .arrayKw := by
          cases begun <;> exact harrayKw
        exact hpiece.extents (hpiece.sentence.arrayDecl hhead) x (by simp)

/-- The declarations that are whole in any reading of the tokens are the ones read. -/
theorem extent {declared : List (List Token)} {begun : List Token} {rest : List TokenKind}
    (h : FitsSoFar pieces first front)
    (hdeclared : ∀ piece ∈ declared, Yields (.category .declaration) (piece.map Token.kind))
    (heq : pieces.flatten ++ front = declared.flatten ++ (begun ++ x :: behind))
    (harray : Yields (.category .arrayDecl) (begun.map Token.kind ++ x.kind :: rest)) :
    x.ExtentFits := by
  induction declared generalizing pieces with
  | nil => exact h.first_extent heq harray
  | cons other declared ih =>
    obtain ⟨hother, hdeclared⟩ := List.forall_mem_cons.1 hdeclared
    rw [List.flatten_cons, List.append_assoc] at heq
    cases pieces with
    | nil =>
      -- the part of a declaration would hold a whole one
      obtain rfl : front = other ++ (declared.flatten ++ (begun ++ x :: behind)) := heq
      rcases h.begun with hnil | ⟨more, hmore⟩
      · simp at hnil
      · rw [List.map_append, List.append_assoc] at hmore
        have hnil := hother.declaration_ended hmore
        simp at hnil
    | cons piece pieces =>
      obtain ⟨hpiece, hpieces⟩ := List.forall_mem_cons.1 h.declared
      rw [List.flatten_cons, List.append_assoc] at heq
      have hsame : piece = other ∧
          pieces.flatten ++ front = declared.flatten ++ (begun ++ x :: behind) := by
        rcases List.append_eq_append_iff.1 heq with ⟨tail, rfl, htail⟩ | ⟨tail, rfl, htail⟩
        · rw [List.map_append] at hother
          obtain rfl := List.map_eq_nil_iff.1 (hpiece.sentence.declaration_ended hother)
          exact ⟨(List.append_nil piece).symm, htail⟩
        · have hsentence := hpiece.sentence
          rw [List.map_append] at hsentence
          obtain rfl := List.map_eq_nil_iff.1 (hother.declaration_ended hsentence)
          exact ⟨List.append_nil other, htail.symm⟩
      exact ih ⟨hpieces, h.fits, h.head, h.begun⟩ hdeclared hsame.2

theorem not_outOfRange {before : List Token} (h : FitsSoFar pieces first front)
    (heq : pieces.flatten ++ front = before ++ x :: behind) : ¬ x.OutOfRange before := by
  rintro (⟨hfloat, hnone⟩ | ⟨hinteger, hextent, hnone⟩)
  · have hsome := h.float (heq ▸ List.mem_append_right before List.mem_cons_self) hfloat
    rw [hnone] at hsome
    cases hsome
  · obtain ⟨declaredKinds, begunKinds, rest, hkinds, hdeclared, harray⟩ := hextent
    obtain ⟨declared, begun, rfl, rfl, rfl⟩ := List.map_eq_append_iff.1 hkinds
    obtain ⟨others, rfl, hothers⟩ := yields_repeated_tokens.1 (yields_category.1 hdeclared)
    rw [← hinteger] at harray
    have hsome := h.extent hothers (heq.trans (List.append_assoc _ _ _)) harray hinteger
    rw [hnone] at hsome
    cases hsome

end FitsSoFar

theorem Token.outOfRange_of_not_fits {pieces : List (List Token)} {front : List Token}
    {first x : Token} {more : List TokenKind} (hpieces : ∀ piece ∈ pieces, IsDeclaration piece)
    (hhead : (front.map Token.kind ++ [x.kind]).head? = some first.kind)
    (hfits : ¬ first.DeclFits x)
    (hmore : Yields (.category .declaration) (front.map Token.kind ++ [x.kind] ++ more)) :
    x.OutOfRange (pieces.flatten ++ front) := by
  by_cases hfloat : x.FloatFits
  · right
    obtain ⟨harrayKw, hextent⟩ := Classical.not_imp.1 fun hextent => hfits ⟨hfloat, hextent⟩
    obtain ⟨hinteger, hnone⟩ := Classical.not_imp.1 hextent
    refine ⟨hinteger, ⟨pieces.flatten.map Token.kind, front.map Token.kind, more, ?_, ?_, ?_⟩, ?_⟩
    · exact List.map_append
    · have hsentences (piece : List Token) (h : piece ∈ pieces) := (hpieces piece h).sentence
      exact .category (yields_repeated_tokens.2 ⟨pieces, rfl, hsentences⟩)
    · have harray := hmore.arrayDecl (by
        rw [List.head?_append, hhead, harrayKw]
        rfl)
      rwa [hinteger, List.append_assoc] at harray
    · exact Option.not_isSome_iff_eq_none.1 hnone
  · left
    obtain ⟨hkind, hnone⟩ := Classical.not_imp.1 hfloat
    exact ⟨hkind, Option.not_isSome_iff_eq_none.1 hnone⟩

theorem TokenQueue.split_at_peek (before rest : List Token) (finish : Position) :
    ∃ behind, before ++ rest ++ [Token.endMarker finish] =
      before ++ TokenStream.peek (⟨rest, finish⟩ : TokenQueue) :: behind := by
  cases rest with
  | nil => exact ⟨[], by rw [List.append_nil]; rfl⟩
  | cons token rest => exact ⟨rest ++ [Token.endMarker finish], List.append_assoc _ _ _⟩

/-- A parse that is given up ends its log with the earliest token it could report, be it the marker
at the end. -/
theorem syntax_error_at_earliest_token (tokens : List Token)
    (h : (parseTokens tokens).tree.isError = true) :
    ∃ before token rest earlier expected found,
      tokens ++ [Token.endMarker (TokenQueue.ofTokens tokens).finish] = before ++ token :: rest ∧
      (parseTokens tokens).log = earlier ++ [.unexpected token.pos expected found] ∧
      Log.hasFatal earlier = false ∧ EarliestFault before token found := by
  cases hrun : Parser.program (.start (TokenQueue.ofTokens tokens)) with
  | ok tree s =>
    obtain ⟨decls, u, _, _, rfl, _⟩ := Parser.program_ok.1 hrun
    rw [parseTokens, parse_of_ok hrun] at h
    cases h
  | error d s =>
    obtain ⟨pieces, u, front, place, last, o, hquiet, hpieces, hfront, hfits, hgives, hbegun,
      hpredicts⟩ := Parser.program_fails hrun
    have hsofar : FitsSoFar pieces u.token front := by
      refine ⟨hpieces.declarations, hfits, ?_, ?_⟩
      · cases hfront with
        | nil => exact fun _ h => absurd h (by simp)
        | cons => exact fun _ h => (Option.some.inj h).symm
      · rcases hbegun with ⟨hnil, _⟩ | ⟨more, hmore⟩
        · exact .inl hnil
        · exact .inr ⟨last ++ more, List.append_assoc _ _ _ ▸ hmore⟩
    obtain ⟨rest, hrest, rfl⟩ := TokenQueue.between_split
      (TokenStream.between_append.2 ⟨_, hpieces.between, hfront⟩)
    obtain ⟨behind, hbehind⟩ :=
      TokenQueue.split_at_peek (pieces.flatten ++ front) rest (TokenQueue.ofTokens tokens).finish
    have hlog : (parseTokens tokens).log = s.log ++ [d] := by
      rw [parseTokens, parse_of_error hrun]
    have hviable : Viable ((pieces.flatten ++ front).map Token.kind) := by
      obtain ⟨more, hmore⟩ := hpredicts.viable
      exact ⟨last ++ more, List.append_assoc _ _ _ ▸ hmore⟩
    cases hgives with
    | refused expected hd =>
      refine ⟨pieces.flatten ++ front, _, behind, s.log, expected, _, hrest ▸ hbehind, hd ▸ hlog,
        hquiet rfl, hviable, fun _ _ _ => hsofar.not_outOfRange, .inl ⟨?_, rfl⟩⟩
      rw [List.append_nil] at hpredicts
      rw [List.map_append]
      exact hpredicts.not_viable
    | outOfRange hd hrange _ =>
      refine ⟨pieces.flatten ++ front, _, behind, s.log, _, _, hrest ▸ hbehind, hd ▸ hlog,
        hquiet rfl, hviable, fun _ _ _ => hsofar.not_outOfRange, .inr ⟨?_, ?_, rfl⟩⟩
      · rw [List.map_append]
        exact hpredicts.viable
      · rcases hbegun with ⟨_, hlast⟩ | ⟨more, hmore⟩
        · cases hlast
        · exact Token.outOfRange_of_not_fits hpieces.declarations hfront.first_kind hrange hmore

def hugeExtent : List Token :=
  [⟨.varKw, "var", ⟨1, 1⟩⟩, ⟨.identifier, "x", ⟨1, 5⟩⟩, ⟨.colon, ":", ⟨1, 6⟩⟩,
    ⟨.identifier, "int", ⟨1, 8⟩⟩, ⟨.semicolon, ";", ⟨1, 11⟩⟩, ⟨.varKw, "var", ⟨2, 1⟩⟩,
    ⟨.identifier, "x", ⟨2, 5⟩⟩, ⟨.colon, ":", ⟨2, 6⟩⟩, ⟨.identifier, "int", ⟨2, 8⟩⟩,
    ⟨.semicolon, ";", ⟨2, 11⟩⟩, ⟨.arrayKw, "array", ⟨3, 1⟩⟩, ⟨.identifier, "a", ⟨3, 7⟩⟩,
    ⟨.colon, ":", ⟨3, 8⟩⟩, ⟨.identifier, "int", ⟨3, 10⟩⟩, ⟨.openBracket, "[", ⟨3, 13⟩⟩,
    ⟨.integer, "2", ⟨3, 14⟩⟩, ⟨.closeBracket, "]", ⟨3, 15⟩⟩, ⟨.openBracket, "[", ⟨3, 16⟩⟩,
    ⟨.integer, "4294967296", ⟨3, 17⟩⟩]

theorem hugeExtent_reported :
    (parseTokens hugeExtent).tree.isError = true ∧
    ∃ before token rest earlier expected found,
      hugeExtent ++ [Token.endMarker (TokenQueue.ofTokens hugeExtent).finish] =
        before ++ token :: rest ∧
      (parseTokens hugeExtent).log = earlier ++ [.unexpected token.pos expected found] ∧
      Log.hasFatal earlier = false ∧ EarliestFault before token found := by
  have herror : (parseTokens hugeExtent).tree.isError = true := by decide +kernel
  exact ⟨herror, syntax_error_at_earliest_token hugeExtent herror⟩

end MipsCompiler
