import MipsCompiler.Proofs.Grammar.Completeness

set_option autoImplicit false

/-!
# Parsing accepts the grammar

A parse is not given up exactly if the tokens before the first end marker are declarations of the
grammar with their numbers in range. Which numbers are extents is said by the grammar alone: those in
the declaration of an array, wherever the tokens can be split so that one stands between declarations.
No declaration is a proper prefix of another, so there is one such split, the one that is read.
-/

namespace MipsCompiler

open TokenStream (Between)

/-- The tokens of a program: those before the first end marker. -/
def sourceOf (tokens : List Token) : List Token :=
  tokens.takeWhile fun token => token.kind ≠ .eof

theorem sourceOf_ne_eof {tokens : List Token} {token : Token} (h : token ∈ sourceOf tokens) :
    token.kind ≠ .eof := by
  have hkind := List.all_eq_true.1 (List.all_takeWhile (l := tokens)) token h
  exact of_decide_eq_true hkind

def IsExtent (source : List Token) (token : Token) : Prop :=
  ∃ before declaration after, source = before ++ declaration ++ after ∧
    Yields (.category .declarations) (before.map Token.kind) ∧
    Yields (.category .arrayDecl) (declaration.map Token.kind) ∧
    Yields (.category .declarations) (after.map Token.kind) ∧
    token ∈ declaration ∧ token.kind = .integer

theorem parse_accepts_iff {σ : Type} [TokenStream σ] {stream : σ} :
    (parse stream).tree.isError = false ↔
      ∃ t, Repeats DeclSpans stream t ∧ (TokenStream.peek t).kind = .eof := by
  constructor
  · intro h
    obtain ⟨_, _, hderives, _⟩ := parse_derives h
    exact hderives.spans
  · rintro ⟨t, hdecls, hend⟩
    obtain ⟨tree, s, hrun, _⟩ := Parser.program_reads hdecls hend (.start stream) rfl
    rw [parse_of_ok hrun]
    obtain ⟨_, _⟩ := Parser.program_sound hrun
    rfl

namespace TokenQueue

theorem between_append (front rest : List Token) (finish : Position)
    (h : ∀ x ∈ front, x.kind ≠ .eof) :
    Between (⟨front ++ rest, finish⟩ : TokenQueue) front ⟨rest, finish⟩ := by
  induction front with
  | nil => exact .nil
  | cons token front ih =>
    obtain ⟨htoken, hfront⟩ := List.forall_mem_cons.1 h
    exact .cons (s := (⟨token :: (front ++ rest), finish⟩ : TokenQueue)) htoken (ih hfront)

theorem between_split {tokens front : List Token} {finish : Position} {t : TokenQueue}
    (h : Between (⟨tokens, finish⟩ : TokenQueue) front t) :
    ∃ rest, tokens = front ++ rest ∧ t = ⟨rest, finish⟩ := by
  generalize hs : (⟨tokens, finish⟩ : TokenQueue) = s at h
  induction h generalizing tokens with
  | nil => exact ⟨tokens, rfl, hs.symm⟩
  | cons hkind _ ih =>
    subst hs
    cases tokens with
    | nil => exact absurd rfl hkind
    | cons token tokens =>
      obtain ⟨rest, rfl, ht⟩ := ih rfl
      exact ⟨rest, rfl, ht⟩

theorem between_source {tokens front : List Token} {finish : Position} :
    (∃ t, Between (⟨tokens, finish⟩ : TokenQueue) front t ∧ (TokenStream.peek t).kind = .eof) ↔
      front = sourceOf tokens := by
  constructor
  · rintro ⟨t, hbetween, hend⟩
    generalize hs : (⟨tokens, finish⟩ : TokenQueue) = s at hbetween
    induction hbetween generalizing tokens with
    | nil =>
      subst hs
      cases tokens with
      | nil => rfl
      | cons token tokens =>
        have hkind : token.kind = .eof := hend
        simp [sourceOf, hkind]
    | cons hkind _ ih =>
      subst hs
      cases tokens with
      | nil => exact absurd rfl hkind
      | cons token tokens =>
        have hkind : token.kind ≠ .eof := hkind
        rw [ih hend rfl]
        simp [sourceOf, TokenStream.peek, peek, hkind]
  · rintro rfl
    obtain ⟨rest, hrest, hend⟩ : ∃ rest, sourceOf tokens ++ rest = tokens ∧
        (TokenStream.peek (⟨rest, finish⟩ : TokenQueue)).kind = .eof := by
      refine ⟨_, List.takeWhile_append_dropWhile, ?_⟩
      cases hrest : tokens.dropWhile fun token => token.kind ≠ .eof with
      | nil => rfl
      | cons token rest =>
        have hstop := List.head?_dropWhile_not (fun token : Token => decide (token.kind ≠ .eof)) tokens
        rw [hrest] at hstop
        have hkind : token.kind = .eof := by simpa using hstop
        exact hkind
    have hbetween := between_append (sourceOf tokens) rest finish fun _ h => sourceOf_ne_eof h
    rw [hrest] at hbetween
    exact ⟨_, hbetween, hend⟩

end TokenQueue

theorem parseTokens_accepts_iff {tokens : List Token} :
    (parseTokens tokens).tree.isError = false ↔
      ∃ pieces : List (List Token), sourceOf tokens = pieces.flatten ∧
        ∀ piece ∈ pieces, IsDeclaration piece := by
  rw [parseTokens, parse_accepts_iff]
  constructor
  · rintro ⟨t, hdecls, hend⟩
    obtain ⟨pieces, hbetween, hpieces⟩ := TokenStream.repeats_between.1 hdecls
    exact ⟨pieces, (TokenQueue.between_source.1 ⟨t, hbetween, hend⟩).symm, hpieces⟩
  · rintro ⟨pieces, hsource, hpieces⟩
    obtain ⟨t, hbetween, hend⟩ := TokenQueue.between_source.2 hsource.symm
    exact ⟨t, TokenStream.repeats_between.2 ⟨pieces, hbetween, hpieces⟩, hend⟩

/-- The token with a text that is in range as any number. Where a declaration ends does not depend on
the texts. -/
def Token.normalized (token : Token) : Token :=
  { token with lexeme := if token.kind = .float then "0.0" else "0" }

theorem Token.normalized_floatFits (token : Token) : token.normalized.FloatFits := by
  intro hfloat
  have hfloat : token.kind = .float := hfloat
  simp only [normalized, hfloat, if_true]
  decide +kernel

theorem Token.normalized_extentFits (token : Token) : token.normalized.ExtentFits := by
  intro hinteger
  have hinteger : token.kind = .integer := hinteger
  simp only [normalized, hinteger]
  decide +kernel

theorem IsDeclaration.normalized {tokens : List Token}
    (h : Yields (.category .declaration) (tokens.map Token.kind)) :
    IsDeclaration (tokens.map Token.normalized) := by
  refine ⟨?_, ?_, fun _ => ?_⟩
  · rw [List.map_map]
    exact h
  · exact List.forall_mem_map.2 fun token _ => token.normalized_floatFits
  · exact List.forall_mem_map.2 fun token _ => token.normalized_extentFits

theorem declaration_ends {front : List Token} (rest : List Token)
    (h : Yields (.category .declaration) (front.map Token.kind)) (heof : ∀ x ∈ front, x.kind ≠ .eof) :
    Parser.Reads Parser.declaration
      (⟨(front ++ rest).map Token.normalized, Position.start⟩ : TokenQueue)
      ⟨rest.map Token.normalized, Position.start⟩ := by
  rw [List.map_append]
  refine Parser.declaration_reads ⟨_, TokenQueue.between_append _ _ _ ?_, .normalized h⟩
  exact List.forall_mem_map.2 heof

theorem declaration_prefix_free {front other rest last : List Token}
    (hfront : Yields (.category .declaration) (front.map Token.kind))
    (hother : Yields (.category .declaration) (other.map Token.kind))
    (heq : front ++ rest = other ++ last) (heof : ∀ x ∈ front ++ rest, x.kind ≠ .eof) :
    front = other := by
  -- the parser stops at the end of both
  have hrest := declaration_ends rest hfront fun x hx => heof x (List.mem_append_left rest hx)
  have hlast := declaration_ends last hother fun x hx => heof x (heq ▸ List.mem_append_left last hx)
  rw [← heq] at hlast
  have hqueues := congrArg (fun queue => queue.tokens.length) (hrest.unique hlast)
  have htotal := congrArg List.length heq
  simp only [List.length_map, List.length_append] at hqueues htotal
  exact (List.append_inj heq (by omega)).1

theorem declarations_unique {pieces others : List (List Token)}
    (hpieces : ∀ piece ∈ pieces, Yields (.category .declaration) (piece.map Token.kind))
    (hothers : ∀ piece ∈ others, Yields (.category .declaration) (piece.map Token.kind))
    (heq : pieces.flatten = others.flatten) (heof : ∀ x ∈ pieces.flatten, x.kind ≠ .eof) :
    pieces = others := by
  have hne (piece : List Token) (h : Yields (.category .declaration) (piece.map Token.kind)) :
      piece ≠ [] := by
    rintro rfl
    obtain ⟨_, _, hnil, _⟩ := Nonterminal.declaration_startsIn _ h
    nomatch hnil
  induction pieces generalizing others with
  | nil =>
    cases others with
    | nil => rfl
    | cons other others =>
      have hnil := (List.append_eq_nil_iff.1 heq.symm).1
      exact absurd hnil (hne other (hothers other List.mem_cons_self))
  | cons piece pieces ih =>
    obtain ⟨hpiece, hpieces⟩ := List.forall_mem_cons.1 hpieces
    cases others with
    | nil => exact absurd (List.append_eq_nil_iff.1 heq).1 (hne piece hpiece)
    | cons other others =>
      obtain ⟨hother, htail⟩ := List.forall_mem_cons.1 hothers
      obtain rfl := declaration_prefix_free hpiece hother heq heof
      have hrest := List.append_cancel_left heq
      rw [ih hpieces htail hrest fun x hx => heof x (List.mem_append_right piece hx)]

theorem IsExtent.fits {pieces : List (List Token)} {token : Token}
    (h : IsExtent pieces.flatten token) (hpieces : ∀ piece ∈ pieces, IsDeclaration piece)
    (heof : ∀ x ∈ pieces.flatten, x.kind ≠ .eof) : (Numeral.extent? token.lexeme).isSome := by
  obtain ⟨before, declaration, after, hsplit, hbefore, harray, hafter, htoken, hinteger⟩ := h
  obtain ⟨front, rfl, hfront⟩ := yields_repeated_tokens.1 (yields_category.1 hbefore)
  obtain ⟨rest, rfl, hrest⟩ := yields_repeated_tokens.1 (yields_category.1 hafter)
  have hdeclaration : Yields (.category .declaration) (declaration.map Token.kind) :=
    .category (.choice (by simp) harray)
  have hothers : ∀ piece ∈ front ++ declaration :: rest,
      Yields (.category .declaration) (piece.map Token.kind) :=
    List.forall_mem_append.2 ⟨hfront, List.forall_mem_cons.2 ⟨hdeclaration, hrest⟩⟩
  have heq : pieces.flatten = (front ++ declaration :: rest).flatten := by
    rw [hsplit, List.flatten_append, List.flatten_cons, List.append_assoc]
  have hunique := declarations_unique (fun piece h => (hpieces piece h).sentence) hothers heq heof
  have hmem : declaration ∈ pieces := by
    rw [hunique]
    exact List.mem_append_right front List.mem_cons_self
  exact (hpieces declaration hmem).extents harray token htoken hinteger

/-- A parse is not given up exactly if the kinds of the tokens before the first end marker are a
sentence of the grammar, the floats among them are finite and the extents fit in 32 bits. -/
theorem parse_accepts_grammar (tokens : List Token) :
    (parseTokens tokens).tree.isError = false ↔
      Yields (.category .declarations) ((sourceOf tokens).map Token.kind) ∧
      (∀ token ∈ sourceOf tokens, token.kind = .float → (Single.ofText? token.lexeme).isSome) ∧
      ∀ token, IsExtent (sourceOf tokens) token → (Numeral.extent? token.lexeme).isSome := by
  rw [parseTokens_accepts_iff]
  constructor
  · rintro ⟨pieces, hsource, hpieces⟩
    refine ⟨?_, ?_, ?_⟩
    · apply Yields.category
      rw [hsource]
      exact yields_repeated_tokens.2 ⟨pieces, rfl, fun piece h => (hpieces piece h).sentence⟩
    · intro token htoken
      rw [hsource] at htoken
      obtain ⟨piece, hpiece, htoken⟩ := List.mem_flatten.1 htoken
      exact (hpieces piece hpiece).floats token htoken
    · intro token hextent
      rw [hsource] at hextent
      exact hextent.fits hpieces fun x hx => sourceOf_ne_eof (hsource ▸ hx)
  · rintro ⟨hsentence, hfloats, hextents⟩
    obtain ⟨pieces, hsource, hpieces⟩ := yields_repeated_tokens.1 (yields_category.1 hsentence)
    refine ⟨pieces, hsource, fun piece hpiece => ⟨hpieces piece hpiece, ?_, ?_⟩⟩
    · intro token htoken
      exact hfloats token (hsource ▸ List.mem_flatten_of_mem hpiece htoken)
    · intro harray token htoken hinteger
      obtain ⟨front, rest, rfl⟩ := List.append_of_mem hpiece
      obtain ⟨hfront, hrest⟩ := List.forall_mem_append.1 hpieces
      refine hextents token ⟨front.flatten, piece, rest.flatten, ?_, ?_, harray, ?_, htoken, hinteger⟩
      · rw [hsource, List.flatten_append, List.flatten_cons, List.append_assoc]
      · exact .category (yields_repeated_tokens.2 ⟨front, rfl, hfront⟩)
      · exact .category (yields_repeated_tokens.2 ⟨rest, rfl, (List.forall_mem_cons.1 hrest).2⟩)

def oversizedArray : List Token :=
  [⟨.arrayKw, "array", ⟨1, 1⟩⟩, ⟨.identifier, "a", ⟨1, 7⟩⟩, ⟨.colon, ":", ⟨1, 8⟩⟩,
    ⟨.identifier, "int", ⟨1, 10⟩⟩, ⟨.openBracket, "[", ⟨1, 13⟩⟩,
    ⟨.integer, "4294967296", ⟨1, 14⟩⟩, ⟨.closeBracket, "]", ⟨1, 24⟩⟩,
    ⟨.semicolon, ";", ⟨1, 25⟩⟩]

theorem oversizedArray_refused :
    Yields (.category .declarations) ((sourceOf oversizedArray).map Token.kind) ∧
      (parseTokens oversizedArray).tree.isError = true := by
  have htype : Yields (.category .typeName) [.identifier] := .category .token
  have harray : Yields (.category .arrayDecl) (oversizedArray.map Token.kind) :=
    .category (.cons .token (.cons .token (.cons .token (.cons htype
      (.cons .token (.cons .token (.cons .token (.cons .none (.cons .token .nil)))))))))
  have hdeclaration : Yields (.category .declaration) (oversizedArray.map Token.kind) :=
    .category (.choice (by simp) harray)
  refine ⟨.category (.more hdeclaration .none), ?_⟩
  rw [← Bool.not_eq_false]
  intro haccepted
  have hextents := ((parse_accepts_grammar oversizedArray).1 haccepted).2.2
  have hextent : IsExtent oversizedArray ⟨.integer, "4294967296", ⟨1, 14⟩⟩ :=
    ⟨[], oversizedArray, [], rfl, .category .none, harray, .category .none,
      by simp [oversizedArray], rfl⟩
  exact absurd (hextents _ hextent) (by decide +kernel)

end MipsCompiler
