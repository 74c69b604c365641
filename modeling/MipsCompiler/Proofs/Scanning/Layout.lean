import MipsCompiler.Proofs.Printing.Text
import MipsCompiler.Proofs.Scanning.Partition

set_option autoImplicit false

/-!
# Layout

Words that can be scanned one by one can be scanned together, whatever blanks and comments are put
between them. A gap has to begin with a blank character: no token contains one, so a word ends where
its gap begins. A comment right behind a word would not do, since a slash in front of it would be
taken for its beginning.
-/

namespace MipsCompiler

/-- Blank characters, and comments that end with their line. -/
inductive IsFiller : List Char → Prop
  | nil : IsFiller []
  | blank {c : Char} {cs : List Char} : Text.isBlank c → IsFiller cs → IsFiller (c :: cs)
  | comment {text cs : List Char} :
      '\n' ∉ text → IsFiller cs → IsFiller ('/' :: '/' :: text ++ '\n' :: cs)

structure IsGap (cs : List Char) : Prop where
  filler : IsFiller cs
  begins : ∃ c ∈ cs.head?, Text.isBlank c

/-- The lexeme, as a text of its own, is the one token of this kind. -/
def Spelling.StandsAlone (word : Spelling) : Prop :=
  (tokensOf word.2).map Token.spelling = [word, (.eof, "")]

instance (word : Spelling) : Decidable word.StandsAlone :=
  inferInstanceAs (Decidable (_ = _))

/-- Each word but the last has a gap behind it, and the last may have one. -/
def GapsBehind : List (Spelling × String) → Prop
  | [] => True
  | [(_, gap)] => gap = "" ∨ IsGap gap.toList
  | (_, gap) :: others => IsGap gap.toList ∧ GapsBehind others

/-- Words in a text, each with what is behind it. -/
structure Layout where
  lead : String
  placed : List (Spelling × String)

namespace Layout

def words (layout : Layout) : List Spelling :=
  layout.placed.map Prod.fst

def text (layout : Layout) : String :=
  layout.lead ++ String.join (layout.placed.map fun item => item.1.2 ++ item.2)

structure Separated (layout : Layout) : Prop where
  lead : IsFiller layout.lead.toList
  gaps : GapsBehind layout.placed

end Layout

/-! ## Blanks -/

theorem isBlank_of_visible {c : Char} (hlow : 0x20 < c.toNat) (hhigh : c.toNat < 0x80) :
    Text.isBlank c = false := by
  have houtside : ∀ range ∈ Text.blankRanges, range.2 ≤ 0x20 ∨ 0x80 ≤ range.1 := by decide
  rw [Text.isBlank, List.any_eq_false]
  intro range hrange hwithin
  rw [Bool.and_eq_true, decide_eq_true_eq, decide_eq_true_eq] at hwithin
  have hother := houtside range hrange
  omega

theorem isBlank_of_isWordPart {c : Char} (h : Cursor.isWordPart c) : Text.isBlank c = false := by
  delta Cursor.isWordPart Char.isAlphanum Char.isAlpha Char.isUpper Char.isLower at h
  simp only [Char.isDigit, Bool.or_eq_true, Bool.and_eq_true, decide_eq_true_eq,
    UInt32.le_iff_toNat_le] at h
  rcases h with ((h | h) | h) | rfl
  · change 65 ≤ c.toNat ∧ c.toNat ≤ 90 at h
    exact isBlank_of_visible (by omega) (by omega)
  · change 97 ≤ c.toNat ∧ c.toNat ≤ 122 at h
    exact isBlank_of_visible (by omega) (by omega)
  · change 48 ≤ c.toNat ∧ c.toNat ≤ 57 at h
    exact isBlank_of_visible (by omega) (by omega)
  · decide

theorem isBlank_of_isDigit {c : Char} (h : c.isDigit) : Text.isBlank c = false := by
  refine isBlank_of_isWordPart ?_
  rw [Cursor.isWordPart, Char.isAlphanum, h, Bool.or_true, Bool.true_or]

theorem TokenKind.isBlank_of_mem_lexeme {kind : TokenKind} {lexeme : String}
    (h : kind.lexeme? = some lexeme) : ∀ c ∈ lexeme.toList, Text.isBlank c = false := by
  have hall : ∀ kind ∈ keywords ++ operators,
      (kind.lexeme?.getD "").toList.all fun c => !Text.isBlank c := by
    decide
  have hkind := hall kind (List.mem_append.2 (mem_of_lexeme? h))
  rw [h] at hkind
  intro c hc
  simpa using List.all_eq_true.1 hkind c hc

theorem HasForm.isBlank_of_mem {kind : TokenKind} {lexeme : List Char} (h : HasForm kind lexeme) :
    ∀ c ∈ lexeme, Text.isBlank c = false := by
  intro c hc
  cases h with
  | identifier hword _ =>
    cases lexeme with
    | nil => cases hc
    | cons first others =>
      obtain ⟨hfirst, hothers⟩ := Bool.and_eq_true_iff.1 hword
      rcases List.mem_cons.1 hc with rfl | hc
      · exact isBlank_of_isWordPart (Cursor.isWordPart_of_isWordStart hfirst)
      · exact isBlank_of_isWordPart (List.all_eq_true.1 hothers c hc)
  | fixed htext => exact TokenKind.isBlank_of_mem_lexeme htext c hc
  | integer _ hdigits => exact isBlank_of_isDigit (List.all_eq_true.1 hdigits c hc)
  | float _ hdigits hfraction =>
    rcases List.mem_append.1 hc with hc | hc
    · exact isBlank_of_isDigit (List.all_eq_true.1 hdigits c hc)
    rcases List.mem_cons.1 hc with rfl | hc
    · decide
    · exact isBlank_of_isDigit (List.all_eq_true.1 hfraction c hc)

/-! ## Words that stand alone -/

section

variable {kind : TokenKind} {lexeme rest : List Char}

theorem IsLexeme.before (h : IsLexeme kind lexeme rest) {others : List Char}
    (hothers : ∀ c ∈ others.head?, Text.isBlank c) : IsLexeme kind lexeme others := by
  refine ⟨h.form, fun longer hbegins hlonger other hform => ?_⟩
  cases others with
  | nil =>
    rw [List.append_nil] at hbegins
    exact absurd hbegins.length_le (Nat.not_le.2 hlonger)
  | cons c others =>
    have hlexeme : lexeme ++ [c] <+: longer := by
      refine List.prefix_of_prefix_length_le ?_ hbegins ?_
      · exact (List.prefix_append_right_inj lexeme).2 ⟨others, rfl⟩
      · rw [List.length_append]
        exact hlonger
    have hc := hform.isBlank_of_mem c (hlexeme.subset (by simp))
    rw [hothers c rfl] at hc
    cases hc

theorem StartsLexeme.before (h : StartsLexeme (lexeme ++ rest)) (hne : lexeme ≠ [])
    {others : List Char} (hothers : ∀ c ∈ others.head?, Text.isBlank c) :
    StartsLexeme (lexeme ++ others) := by
  cases lexeme with
  | nil => exact absurd rfl hne
  | cons c cs =>
    refine ⟨h.1, ?_⟩
    rintro ⟨rfl, hslash⟩
    cases cs with
    | nil => exact absurd (hothers '/' hslash) (by decide)
    | cons d cs => exact h.2 ⟨rfl, hslash⟩

end

theorem Spelling.standsAlone_iff {word : Spelling} :
    word.StandsAlone ↔ StartsLexeme word.2.toList ∧ IsLexeme word.1 word.2.toList [] := by
  have hpartitions := tokensOf_partitions word.2
  constructor
  · intro h
    unfold StandsAlone at h
    generalize tokensOf word.2 = tokens at h hpartitions
    generalize hsource : word.2.toList = source at hpartitions ⊢
    cases hpartitions with
    | finish => cases h
    | @token _ trivia lexeme rest kind tokens _ hstarts hlexeme _ =>
      obtain rfl := (List.cons.inj h).1
      -- the word is all of the text, so nothing is in front of it or behind it
      rw [Token.spelling, String.toList_ofList] at hsource
      have hlength := congrArg List.length hsource
      rw [List.length_append, List.length_append] at hlength
      obtain rfl := List.length_eq_zero_iff.1 (show trivia.length = 0 by omega)
      obtain rfl := List.length_eq_zero_iff.1 (show rest.length = 0 by omega)
      rw [List.append_nil] at hstarts
      rw [List.append_nil]
      exact ⟨hstarts, hlexeme⟩
  · rintro ⟨hstarts, hlexeme⟩
    rw [← List.append_nil word.2.toList] at hstarts
    have hfinish : Partitions Position.counted ([] ++ [] ++ word.2.toList) [] _ := .finish .nil
    have hword := Partitions.token .nil hstarts hlexeme hfinish
    rw [List.nil_append, List.append_nil, String.ofList_toList] at hword
    rw [StandsAlone, hpartitions.unique hword]
    rfl

/-! ## Words with gaps between them -/

theorem IsFiller.isTrivia {filler : List Char} (h : IsFiller filler) (rest : List Char) :
    IsTrivia rest filler := by
  induction h with
  | nil => exact .nil
  | blank hblank _ ih => exact .blank hblank ih
  | comment htext _ ih =>
    refine .comment htext (fun c hc => ?_) (.blank (by decide) ih)
    exact (Option.some.inj hc).symm

def placedChars (placed : List (Spelling × String)) : List Char :=
  placed.flatMap fun item => item.1.2.toList ++ item.2.toList

theorem GapsBehind.uncons {word : Spelling} {gap : String} {others : List (Spelling × String)}
    (h : GapsBehind ((word, gap) :: others)) :
    IsFiller gap.toList ∧ GapsBehind others ∧
      ∀ c ∈ (gap.toList ++ placedChars others).head?, Text.isBlank c := by
  have hbegins (hgap : IsGap gap.toList) :
      ∀ c ∈ (gap.toList ++ placedChars others).head?, Text.isBlank c := by
    obtain ⟨first, hfirst, hblank⟩ := hgap.begins
    intro c hc
    rw [List.head?_append, hfirst] at hc
    exact Option.some.inj hc ▸ hblank
  cases others with
  | nil =>
    rcases h with rfl | hgap
    · exact ⟨.nil, trivial, fun c hc => by cases hc⟩
    · exact ⟨hgap.filler, trivial, hbegins hgap⟩
  | cons item others => exact ⟨h.1.filler, h.2, hbegins h.1⟩

/-- By induction on the words, with any filler in front of the first: behind it, the gap is the filler
in front of the next. -/
theorem GapsBehind.partitions {placed : List (Spelling × String)} (h : GapsBehind placed)
    (halone : ∀ item ∈ placed, item.1.StandsAlone) {filler : List Char} (hfiller : IsFiller filler)
    (place : List Char → Position) (before : List Char) :
    ∃ tokens, Partitions place before (filler ++ placedChars placed) tokens ∧
      tokens.map Token.spelling = placed.map Prod.fst ++ [(.eof, "")] := by
  induction placed generalizing filler before with
  | nil =>
    rw [placedChars, List.flatMap_nil, List.append_nil]
    exact ⟨_, .finish (hfiller.isTrivia []), rfl⟩
  | cons item others ih =>
    obtain ⟨word, gap⟩ := item
    obtain ⟨hword, hothers⟩ := List.forall_mem_cons.1 halone
    obtain ⟨hgap, hgaps, hends⟩ := h.uncons
    obtain ⟨hstarts, hlexeme⟩ := Spelling.standsAlone_iff.1 hword
    have hne : word.2.toList ≠ [] := List.length_pos_iff.1 hlexeme.length_pos
    rw [← List.append_nil word.2.toList] at hstarts
    obtain ⟨tokens, htokens, hspelled⟩ := ih hgaps hothers hgap (before ++ filler ++ word.2.toList)
    have htoken := Partitions.token (hfiller.isTrivia _) (hstarts.before hne hends)
      (hlexeme.before hends) htokens
    rw [String.ofList_toList] at htoken
    rw [placedChars, List.flatMap_cons, List.append_assoc]
    exact ⟨_, htoken, congrArg (word :: ·) hspelled⟩

theorem Layout.toList_text (layout : Layout) :
    layout.text.toList = layout.lead.toList ++ placedChars layout.placed := by
  rw [text, String.toList_append]
  congr 1
  induction layout.placed with
  | nil => rfl
  | cons item others ih =>
    rw [List.map_cons, String.join_cons, String.toList_append, String.toList_append, ih]
    rfl

theorem Layout.tokensOf_text {layout : Layout} (h : layout.Separated)
    (halone : ∀ word ∈ layout.words, word.StandsAlone) :
    (tokensOf layout.text).map Token.spelling = layout.words ++ [(.eof, "")] := by
  have halone : ∀ item ∈ layout.placed, item.1.StandsAlone :=
    fun item hitem => halone item.1 (List.mem_map_of_mem hitem)
  obtain ⟨tokens, htokens, hspelled⟩ := h.gaps.partitions halone h.lead Position.counted []
  rw [← layout.toList_text] at htokens
  rw [(tokensOf_partitions layout.text).unique htokens]
  exact hspelled

theorem Token.spelling_standsAlone {source : String} {token : Token}
    (htoken : token ∈ tokensOf source) (hkind : token.kind ≠ .eof) : token.spelling.StandsAlone := by
  obtain ⟨rest, hstarts, hlexeme⟩ := (tokensOf_partitions source).isLexeme htoken hkind
  have hne : token.lexeme.toList ≠ [] := List.length_pos_iff.1 hlexeme.length_pos
  have hnothing : ∀ c ∈ ([] : List Char).head?, Text.isBlank c := fun c hc => by cases hc
  have hstarts := hstarts.before hne hnothing
  rw [List.append_nil] at hstarts
  exact Spelling.standsAlone_iff.2 ⟨hstarts, hlexeme.before hnothing⟩

/-- Words that stand alone are scanned one after the other from any text in which gaps are between
them. The tokens of a source are such words, so that its layout can be changed. -/
theorem layout_ignored :
    (∀ layout : Layout, layout.Separated → (∀ word ∈ layout.words, word.StandsAlone) →
      (tokensOf layout.text).map Token.spelling = layout.words ++ [(.eof, "")]) ∧
    ∀ source,
      (∀ token ∈ tokensOf source, token.kind ≠ .eof → token.spelling.StandsAlone) ∧
      ∀ layout : Layout, layout.Separated →
        layout.words = ((tokensOf source).filter fun token => token.kind ≠ .eof).map Token.spelling →
        (tokensOf layout.text).map Token.spelling = (tokensOf source).map Token.spelling := by
  refine ⟨fun layout => Layout.tokensOf_text, fun source => ?_⟩
  have halone {token : Token} (htoken : token ∈ tokensOf source) (hkind : token.kind ≠ .eof) :=
    Token.spelling_standsAlone htoken hkind
  refine ⟨fun token => halone, fun layout hseparated hwords => ?_⟩
  obtain ⟨front, htokens, hfront⟩ := (tokensOf_partitions source).ends
  have hfilter : ((tokensOf source).filter fun token => token.kind ≠ .eof) = front := by
    rw [htokens, List.filter_append, List.filter_eq_self.2 (by simpa using hfront)]
    exact List.append_nil front
  rw [hfilter] at hwords
  rw [Layout.tokensOf_text hseparated, hwords, htokens, List.map_append]
  · rfl
  · intro word hword
    rw [hwords] at hword
    obtain ⟨token, htoken, rfl⟩ := List.mem_map.1 hword
    exact halone (htokens ▸ List.mem_append_left _ htoken) (hfront token htoken)

def slashes : Layout where
  lead := "// a\n"
  placed := [((.div, "/"), " // 7\n"), ((.div, "/"), "\t"), ((.float, "7."), "\n//\n"),
    ((.integer, "5"), " "), ((.error, "!"), "\n"), ((.assign, "="), "")]

theorem slashes_scanned :
    slashes.Separated ∧ (∀ word ∈ slashes.words, word.StandsAlone) ∧
      (tokensOf slashes.text).map Token.spelling = slashes.words ++ [(.eof, "")] ∧
      (tokensOf slashes.text).map Token.spelling =
        (tokensOf "/ /7. 5! =//").map Token.spelling := by
  have hlead : IsFiller "// a\n".toList := @IsFiller.comment [' ', 'a'] [] (by decide) .nil
  have hfirst : IsFiller " // 7\n".toList :=
    .blank (by decide) (@IsFiller.comment [' ', '7'] [] (by decide) .nil)
  have hthird : IsFiller "\n//\n".toList :=
    .blank (by decide) (@IsFiller.comment [] [] (by decide) .nil)
  have hblank (c : Char) (h : Text.isBlank c) : IsGap [c] := ⟨.blank h .nil, c, rfl, h⟩
  have hseparated : slashes.Separated :=
    ⟨hlead, ⟨hfirst, ' ', rfl, by decide⟩, hblank '\t' (by decide), ⟨hthird, '\n', rfl, by decide⟩,
      hblank ' ' (by decide), hblank '\n' (by decide), .inl rfl⟩
  have halone : ∀ word ∈ slashes.words, word.StandsAlone := by decide +kernel
  exact ⟨hseparated, halone, layout_ignored.1 slashes hseparated halone,
    (layout_ignored.2 "/ /7. 5! =//").2 slashes hseparated (by decide +kernel)⟩

end MipsCompiler
