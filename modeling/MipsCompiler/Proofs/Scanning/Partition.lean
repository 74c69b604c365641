import MipsCompiler.Proofs.Scanning.Lexeme

set_option autoImplicit false

/-!
# Tokens partition the source

A source is trivia and lexemes in turn. `Partitions` says so of a list of tokens: each token has the
lexeme at its place, the trivia before it reaches as far as it can, and the token is placed by the
characters in front of it. The tokens that are scanned from a source are the only ones that partition
it.

A token is placed where `Position.counted` says, which counts in words. In a source of fewer than
`Word.count - 1` characters that is its line and column.
-/

namespace MipsCompiler

def Position.behind (before : List Char) : Position :=
  ⟨1 + before.count '\n', 1 + (before.reverse.takeWhile (· ≠ '\n')).length⟩

def Position.counted (before : List Char) : Position :=
  ⟨(behind before).line % Word.count, (behind before).column % Word.count⟩

/-- Blank characters and comments, in front of `rest`. A comment runs up to a line feed, which is a
blank character behind it, or up to the end of the source. -/
inductive IsTrivia (rest : List Char) : List Char → Prop
  | nil : IsTrivia rest []
  | blank {c : Char} {cs : List Char} :
      Text.isBlank c → IsTrivia rest cs → IsTrivia rest (c :: cs)
  | comment {text cs : List Char} :
      '\n' ∉ text → (∀ c ∈ (cs ++ rest).head?, c = '\n') → IsTrivia rest cs →
      IsTrivia rest ('/' :: '/' :: text ++ cs)

/-- The characters begin with no trivia. -/
def StartsLexeme : List Char → Prop
  | [] => True
  | c :: cs => Text.isBlank c = false ∧ ¬ (c = '/' ∧ cs.head? = some '/')

/-- The tokens are those of `source`, which stands behind `before`. A token behind some text is at
`place` of that text. -/
inductive Partitions (place : List Char → Position) : List Char → List Char → List Token → Prop
  | finish {before trivia : List Char} :
      IsTrivia [] trivia →
      Partitions place before trivia [Token.endMarker (place (before ++ trivia))]
  | token {before trivia lexeme rest : List Char} {kind : TokenKind} {tokens : List Token} :
      IsTrivia (lexeme ++ rest) trivia → StartsLexeme (lexeme ++ rest) →
      IsLexeme kind lexeme rest → Partitions place (before ++ trivia ++ lexeme) rest tokens →
      Partitions place before (trivia ++ (lexeme ++ rest))
        (⟨kind, String.ofList lexeme, place (before ++ trivia)⟩ :: tokens)

namespace Position

theorem behind_concat (before : List Char) (c : Char) :
    behind (before ++ [c]) =
      if c = '\n' then ⟨(behind before).line + 1, 1⟩
      else ⟨(behind before).line, (behind before).column + 1⟩ := by
  unfold behind
  by_cases h : c = '\n'
  · simp [h, Nat.add_assoc]
  · simp [h, Nat.add_comm]

theorem counted_concat (before : List Char) (c : Char) :
    counted (before ++ [c]) = (counted before).after c := by
  unfold counted after
  rw [behind_concat]
  split
  · rw [Nat.mod_add_mod, Nat.mod_eq_of_lt (by decide : 1 < Word.count)]
  · rw [Nat.mod_add_mod]

theorem counted_append (before cs : List Char) :
    counted (before ++ cs) = (counted before).afterAll cs := by
  induction cs generalizing before with
  | nil => rw [List.append_nil]; rfl
  | cons c cs ih =>
    have hstep := ih (before ++ [c])
    rw [counted_concat, List.append_assoc] at hstep
    exact hstep

theorem counted_eq {before : List Char} (h : before.length + 1 < Word.count) :
    counted before = behind before := by
  have hlines : before.count '\n' ≤ before.length := List.count_le_length
  have hcolumns := (before.reverse.takeWhile_sublist (· ≠ '\n')).length_le
  rw [List.length_reverse] at hcolumns
  have hline : (behind before).line < Word.count := by
    simp only [behind]
    omega
  have hcolumn : (behind before).column < Word.count := by
    simp only [behind]
    omega
  rw [counted, Nat.mod_eq_of_lt hline, Nat.mod_eq_of_lt hcolumn]

end Position

theorem IsLexeme.kind_ne_eof {kind : TokenKind} {lexeme rest : List Char}
    (h : IsLexeme kind lexeme rest) : kind ≠ .eof := by
  rintro rfl
  rcases h.form with hform | ⟨herror, _⟩
  · cases hform with
    | fixed htext => nomatch htext
  · nomatch herror

theorem IsLexeme.append_ne_nil {kind : TokenKind} {lexeme rest : List Char}
    (h : IsLexeme kind lexeme rest) : lexeme ++ rest ≠ [] :=
  List.append_ne_nil_of_left_ne_nil (List.length_pos_iff.1 h.length_pos) rest

namespace Cursor

theorem skipTrivia_blank {c : Char} (h : Text.isBlank c) (pos : Position) (cs : List Char) :
    skipTrivia false pos (c :: cs) = skipTrivia false (pos.after c) cs := by
  rw [skipTrivia, if_neg Bool.false_ne_true, if_pos h]

theorem skipTrivia_comment (pos : Position) (cs : List Char) :
    skipTrivia false pos ('/' :: '/' :: cs) = skipTrivia true (pos.after '/') ('/' :: cs) := by
  have hslash : Text.isBlank '/' = false := by decide
  rw [skipTrivia, if_neg Bool.false_ne_true, hslash, if_neg Bool.false_ne_true, if_pos ⟨rfl, rfl⟩]

theorem skipTrivia_inComment {text : List Char} (h : '\n' ∉ text) (pos : Position) (cs : List Char) :
    skipTrivia true pos (text ++ cs) = skipTrivia true (pos.afterAll text) cs := by
  induction text generalizing pos with
  | nil => rfl
  | cons c text ih =>
    obtain ⟨hne, htext⟩ := not_or.1 (fun hmem => h (List.mem_cons.2 hmem))
    rw [List.cons_append, skipTrivia, if_pos rfl, decide_eq_true (Ne.symm hne), ih htext]
    rfl

theorem skipTrivia_endComment {cs : List Char} (h : ∀ c ∈ cs.head?, c = '\n') (pos : Position) :
    skipTrivia true pos cs = skipTrivia false pos cs := by
  cases cs with
  | nil => rfl
  | cons c cs =>
    obtain rfl := h c rfl
    rw [skipTrivia_blank (by decide)]
    rfl

theorem skipTrivia_eq {trivia rest : List Char} (h : IsTrivia rest trivia) (hrest : StartsLexeme rest)
    (pos : Position) :
    skipTrivia false pos (trivia ++ rest) = ⟨rest, pos.afterAll trivia⟩ := by
  induction h generalizing pos with
  | nil =>
    cases rest with
    | nil => rfl
    | cons c cs =>
      obtain ⟨hblank, hcomment⟩ := hrest
      rw [List.nil_append, skipTrivia, if_neg Bool.false_ne_true, hblank, if_neg Bool.false_ne_true,
        if_neg hcomment]
      rfl
  | @blank c cs hblank _ ih =>
    rw [List.cons_append, skipTrivia_blank hblank, ih]
    rfl
  | @comment text cs htext hend _ ih =>
    have hslashes : '\n' ∉ '/' :: text := by simp [htext]
    rw [List.append_assoc, List.cons_append, List.cons_append, skipTrivia_comment,
      ← List.cons_append, skipTrivia_inComment hslashes, skipTrivia_endComment hend, ih]
    simp [Position.afterAll]

/-- The characters up to `rest` are trivia, or what is left of a comment with trivia behind it. -/
def Skips (rest : List Char) : Bool → List Char → Prop
  | false, cs => ∃ trivia, cs = trivia ++ rest ∧ IsTrivia rest trivia
  | true, cs => ∃ text trivia, cs = text ++ (trivia ++ rest) ∧ '\n' ∉ text ∧
      (∀ c ∈ (trivia ++ rest).head?, c = '\n') ∧ IsTrivia rest trivia

theorem Skips.inComment {rest cs : List Char} {c : Char} (h : Skips rest (c ≠ '\n') cs) :
    Skips rest true (c :: cs) := by
  by_cases hc : c = '\n'
  · subst hc
    obtain ⟨trivia, rfl, htrivia⟩ := h
    refine ⟨[], '\n' :: trivia, rfl, List.not_mem_nil, ?_, .blank (by decide) htrivia⟩
    intro c hhead
    exact (Option.some.inj hhead).symm
  · rw [decide_eq_true hc] at h
    obtain ⟨text, trivia, rfl, htext, hend, htrivia⟩ := h
    refine ⟨c :: text, trivia, rfl, ?_, hend, htrivia⟩
    simp [Ne.symm hc, htext]

theorem Skips.comment {rest cs : List Char} (hslash : cs.head? = some '/')
    (h : Skips rest true cs) : Skips rest false ('/' :: cs) := by
  obtain ⟨text, trivia, rfl, htext, hend, htrivia⟩ := h
  cases text with
  | nil => exact absurd (hend '/' hslash) (by decide)
  | cons c text =>
    obtain rfl := Option.some.inj hslash
    have htext : '\n' ∉ text := fun hmem => htext (List.mem_cons_of_mem _ hmem)
    exact ⟨'/' :: '/' :: text ++ trivia, by simp, .comment htext hend htrivia⟩

theorem skipTrivia_skips (cs : List Char) (inComment : Bool) (pos : Position) :
    StartsLexeme (skipTrivia inComment pos cs).rest ∧
      Skips (skipTrivia inComment pos cs).rest inComment cs := by
  induction cs generalizing inComment pos with
  | nil =>
    refine ⟨trivial, ?_⟩
    cases inComment with
    | false => exact ⟨[], rfl, .nil⟩
    | true => exact ⟨[], [], rfl, List.not_mem_nil, fun _ h => (nomatch h), .nil⟩
  | cons c cs ih =>
    unfold skipTrivia
    cases inComment with
    | true =>
      rw [if_pos rfl]
      obtain ⟨hstarts, hskips⟩ := ih (c ≠ '\n') (pos.after c)
      exact ⟨hstarts, hskips.inComment⟩
    | false =>
      rw [if_neg Bool.false_ne_true]
      split
      next hblank =>
        obtain ⟨hstarts, trivia, htrivia, hblanks⟩ := ih false (pos.after c)
        exact ⟨hstarts, c :: trivia, congrArg (c :: ·) htrivia, .blank hblank hblanks⟩
      next hblank =>
        split
        next hslashes =>
          obtain ⟨rfl, hslash⟩ := hslashes
          obtain ⟨hstarts, hskips⟩ := ih true (pos.after '/')
          exact ⟨hstarts, hskips.comment hslash⟩
        next hslashes => exact ⟨⟨Bool.eq_false_iff.2 hblank, hslashes⟩, [], rfl, .nil⟩

theorem trivia_unique {trivia trivia' rest rest' : List Char} (h : IsTrivia rest trivia)
    (hrest : StartsLexeme rest) (h' : IsTrivia rest' trivia') (hrest' : StartsLexeme rest')
    (heq : trivia ++ rest = trivia' ++ rest') : trivia = trivia' ∧ rest = rest' := by
  have hskip := skipTrivia_eq h hrest Position.start
  rw [heq, skipTrivia_eq h' hrest' Position.start] at hskip
  obtain rfl : rest' = rest := congrArg Cursor.rest hskip
  exact ⟨List.append_cancel_right heq, rfl⟩

theorem scan_cases {cursor : Cursor} {before : List Char} (hpos : cursor.pos = .counted before) :
    (∃ trivia, cursor.rest = trivia ∧ IsTrivia [] trivia ∧
      cursor.scan.1 = Token.endMarker (.counted (before ++ trivia)) ∧
      cursor.scan.2 = ⟨[], .counted (before ++ trivia)⟩) ∨
    ∃ trivia kind lexeme rest, cursor.rest = trivia ++ (lexeme ++ rest) ∧
      IsTrivia (lexeme ++ rest) trivia ∧ StartsLexeme (lexeme ++ rest) ∧ IsLexeme kind lexeme rest ∧
      cursor.scan.1 = ⟨kind, String.ofList lexeme, .counted (before ++ trivia)⟩ ∧
      cursor.scan.2 = ⟨rest, .counted (before ++ trivia ++ lexeme)⟩ := by
  obtain ⟨hstarts, trivia, hsource, htrivia⟩ := skipTrivia_skips cursor.rest false cursor.pos
  generalize (skipTrivia false cursor.pos cursor.rest).rest = rest at hstarts hsource htrivia
  have hskip := skipTrivia_eq htrivia hstarts cursor.pos
  rw [← hsource, hpos, ← Position.counted_append] at hskip
  unfold scan
  rw [hpos, hskip]
  cases rest with
  | nil => exact .inl ⟨trivia, by rw [hsource, List.append_nil], htrivia, rfl, rfl⟩
  | cons c cs =>
    have hwhole := List.prefix_iff_eq_append.1 (lexemeAt_begins (c :: cs))
    refine .inr ⟨trivia, (lexemeAt (c :: cs)).1, (lexemeAt (c :: cs)).2,
      (c :: cs).drop (lexemeAt (c :: cs)).2.length, ?_⟩
    rw [hwhole]
    refine ⟨hsource, htrivia, hstarts, lexemeAt_isLexeme c cs, rfl, ?_⟩
    rw [Position.counted_append (before ++ trivia)]

end Cursor

namespace Scanner

theorem pull_partitions (n : Nat) {cursor : Cursor} {before : List Char}
    (hlength : cursor.rest.length < n) (hpos : cursor.pos = .counted before) :
    Partitions Position.counted before cursor.rest
      (Token.throughEnd (TokenStream.pull n (ofCursor cursor))) := by
  induction n generalizing cursor before with
  | zero => exact absurd hlength (Nat.not_lt_zero _)
  | succ n ih =>
    change Partitions Position.counted before cursor.rest
      (Token.throughEnd (cursor.scan.1 :: TokenStream.pull n (ofCursor cursor.scan.2)))
    rcases Cursor.scan_cases hpos with ⟨trivia, hrest, htrivia, htoken, _⟩ |
      ⟨trivia, kind, lexeme, rest, hrest, htrivia, hstarts, hlexeme, htoken, hcursor⟩
    · rw [hrest, htoken]
      exact .finish htrivia
    · have hpositive := hlexeme.length_pos
      simp only [hrest, List.length_append] at hlength
      have hshorter : rest.length < n := by omega
      have htokens := @ih ⟨rest, .counted (before ++ trivia ++ lexeme)⟩ _ hshorter rfl
      rw [hrest, htoken, hcursor, Token.throughEnd, if_neg hlexeme.kind_ne_eof]
      exact .token htrivia hstarts hlexeme htokens

end Scanner

namespace Partitions

variable {place : List Char → Position} {before source : List Char} {tokens others : List Token}

theorem unique (h : Partitions place before source tokens)
    (hother : Partitions place before source others) : tokens = others := by
  induction h generalizing others with
  | @finish before trivia htrivia =>
    generalize hsource : trivia = source at hother
    cases hother with
    | finish => subst hsource; rfl
    | @token _ trivia' lexeme rest _ _ htrivia' hstarts hlexeme _ =>
      rw [← List.append_nil trivia] at hsource
      have hend := (Cursor.trivia_unique htrivia trivial htrivia' hstarts hsource).2
      exact absurd hend.symm hlexeme.append_ne_nil
  | @token before trivia lexeme rest kind tokens htrivia hstarts hlexeme _ ih =>
    generalize hsource : trivia ++ (lexeme ++ rest) = source at hother
    cases hother with
    | finish htrivia' =>
      rw [← List.append_nil source] at hsource
      have hend := (Cursor.trivia_unique htrivia hstarts htrivia' trivial hsource).2
      exact absurd hend hlexeme.append_ne_nil
    | @token _ trivia' lexeme' rest' kind' tokens' htrivia' hstarts' hlexeme' hrest =>
      obtain ⟨rfl, heq⟩ := Cursor.trivia_unique htrivia hstarts htrivia' hstarts' hsource
      obtain ⟨rfl, rfl, rfl⟩ := hlexeme.unique hlexeme' heq
      rw [ih hrest]

theorem ends (h : Partitions place before source tokens) :
    ∃ front, tokens = front ++ [Token.endMarker (place (before ++ source))] ∧
      ∀ token ∈ front, token.kind ≠ .eof := by
  induction h with
  | finish => exact ⟨[], rfl, fun _ h => absurd h List.not_mem_nil⟩
  | @token before trivia lexeme rest kind tokens _ _ hlexeme _ ih =>
    obtain ⟨front, rfl, hfront⟩ := ih
    refine ⟨⟨kind, String.ofList lexeme, place (before ++ trivia)⟩ :: front, ?_, ?_⟩
    · simp only [List.cons_append, List.append_assoc]
    exact List.forall_mem_cons.2 ⟨hlexeme.kind_ne_eof, hfront⟩

theorem isLexeme (h : Partitions place before source tokens) {token : Token} (htoken : token ∈ tokens)
    (hkind : token.kind ≠ .eof) :
    ∃ rest, StartsLexeme (token.lexeme.toList ++ rest) ∧
      IsLexeme token.kind token.lexeme.toList rest := by
  induction h with
  | finish =>
    obtain rfl := List.mem_singleton.1 htoken
    exact absurd rfl hkind
  | @token before trivia lexeme rest kind tokens _ hstarts hlexeme _ ih =>
    rcases List.mem_cons.1 htoken with rfl | htoken
    · refine ⟨rest, ?_⟩
      rw [String.toList_ofList]
      exact ⟨hstarts, hlexeme⟩
    · exact ih htoken

theorem replace {place' : List Char → Position} (h : Partitions place before source tokens)
    (hplace : ∀ front, front <+: before ++ source → place front = place' front) :
    Partitions place' before source tokens := by
  induction h with
  | @finish before trivia htrivia =>
    rw [hplace _ (List.prefix_refl _)]
    exact .finish htrivia
  | @token before trivia lexeme rest kind tokens htrivia hstarts hlexeme _ ih =>
    have hfront : before ++ trivia <+: before ++ (trivia ++ (lexeme ++ rest)) := by
      rw [← List.append_assoc]
      exact List.prefix_append _ _
    rw [hplace _ hfront]
    refine .token htrivia hstarts hlexeme (ih fun front h => hplace front ?_)
    simpa only [List.append_assoc] using h

end Partitions

theorem tokensOf_partitions (source : String) :
    Partitions Position.counted [] source.toList (tokensOf source) := by
  have hlength : (Cursor.mk source.toList Position.start).rest.length < source.length + 1 := by
    rw [String.length_toList]
    exact Nat.lt_succ_self _
  exact Scanner.pull_partitions _ hlength rfl

/-- The tokens scanned from a source are the only ones that partition it, and the last of them is the
only end marker. In a source that is not too long for it, each token is at its line and column. -/
theorem tokens_partition_source (source : String) :
    (∀ tokens, Partitions Position.counted [] source.toList tokens ↔ tokens = tokensOf source) ∧
    (source.length + 1 < Word.count →
      ∀ tokens, Partitions Position.behind [] source.toList tokens ↔ tokens = tokensOf source) ∧
    ∃ front, tokensOf source = front ++ [Token.endMarker (.counted source.toList)] ∧
      ∀ token ∈ front, token.kind ≠ .eof := by
  have hpartitions := tokensOf_partitions source
  refine ⟨fun tokens => ⟨fun h => h.unique hpartitions, ?_⟩, fun hshort tokens => ?_,
    hpartitions.ends⟩
  · rintro rfl
    exact hpartitions
  · have hexact : Partitions Position.behind [] source.toList (tokensOf source) := by
      refine hpartitions.replace fun front hfront => Position.counted_eq ?_
      have hle := hfront.length_le
      rw [List.nil_append, String.length_toList] at hle
      omega
    refine ⟨fun h => h.unique hexact, ?_⟩
    rintro rfl
    exact hexact

theorem lone_mark_partition :
    Partitions Position.behind [] "x/!\n7..//".toList
      [⟨.identifier, "x", ⟨1, 1⟩⟩, ⟨.div, "/", ⟨1, 2⟩⟩, ⟨.error, "!", ⟨1, 3⟩⟩, ⟨.float, "7.", ⟨2, 1⟩⟩,
        ⟨.error, ".", ⟨2, 3⟩⟩, ⟨.eof, "", ⟨2, 6⟩⟩] :=
  ((tokens_partition_source "x/!\n7..//").2.1 (by decide) _).2 (by decide +kernel)

end MipsCompiler
