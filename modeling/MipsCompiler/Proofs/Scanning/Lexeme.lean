import MipsCompiler.Token.Scanner

set_option autoImplicit false

/-!
# The form of lexemes

`HasForm` says which texts a token of a kind can have, without regard to how a text is scanned. Every
kind has texts of its own, and `lexemeAt` finds the longest one that the characters begin with. Only
where they begin with none at all is a single character given up as unrecognised.
-/

namespace MipsCompiler

def isWord : List Char → Bool
  | [] => false
  | c :: cs => Cursor.isWordStart c && cs.all Cursor.isWordPart

inductive HasForm : TokenKind → List Char → Prop
  | identifier {cs : List Char} :
      isWord cs → (∀ kind ∈ TokenKind.keywords, kind.lexeme? ≠ some (String.ofList cs)) →
      HasForm .identifier cs
  | fixed {kind : TokenKind} {lexeme : String} :
      kind.lexeme? = some lexeme → HasForm kind lexeme.toList
  | integer {digits : List Char} :
      digits ≠ [] → digits.all Char.isDigit → HasForm .integer digits
  | float {digits fraction : List Char} :
      digits ≠ [] → digits.all Char.isDigit → fraction.all Char.isDigit →
      HasForm .float (digits ++ '.' :: fraction)

/-- The text of a token that is followed by `rest`. No longer text at this place has a form. -/
structure IsLexeme (kind : TokenKind) (lexeme rest : List Char) : Prop where
  form : HasForm kind lexeme ∨
    kind = .error ∧ ∃ c, lexeme = [c] ∧ ∀ other, ¬ HasForm other [c]
  maximal : ∀ longer, longer <+: lexeme ++ rest → lexeme.length < longer.length →
    ∀ other, ¬ HasForm other longer

theorem prefix_takeWhile {p : Char → Bool} {front cs : List Char} (h : front <+: cs)
    (hall : front.all p) : front <+: cs.takeWhile p := by
  obtain ⟨rest, rfl⟩ := h
  rw [List.takeWhile_append_of_pos (List.all_eq_true.1 hall)]
  exact List.prefix_append _ _

namespace TokenKind

theorem mem_of_lexeme? {kind : TokenKind} {lexeme : String} (h : kind.lexeme? = some lexeme) :
    kind ∈ keywords ∨ kind ∈ operators := by
  have hall : ∀ kind ∈ all, kind.lexeme?.isSome → kind ∈ keywords ∨ kind ∈ operators := by decide
  have hmem : kind ∈ all := by cases kind <;> decide
  exact hall kind hmem (Option.isSome_of_eq_some h)

theorem keyword_isWord : ∀ kind ∈ keywords, ∃ lexeme, kind.lexeme? = some lexeme ∧
    isWord lexeme.toList := by
  decide

theorem operator_first : ∀ kind ∈ operators, ∃ lexeme, kind.lexeme? = some lexeme ∧
    ∃ c ∈ lexeme.toList.head?, c.isDigit = false ∧ Cursor.isWordStart c = false := by
  -- on Booleans, so that no character is searched for
  have hall : ∀ kind ∈ operators, ∃ lexeme, kind.lexeme? = some lexeme ∧
      lexeme.toList.head?.any fun c => !c.isDigit && !Cursor.isWordStart c := by
    decide
  intro kind hkind
  obtain ⟨lexeme, hlexeme, hfirst⟩ := hall kind hkind
  obtain ⟨c, hc, hother⟩ := (Option.any_eq_true _ _).1 hfirst
  exact ⟨lexeme, hlexeme, c, hc, by simpa using hother⟩

theorem operators_longest_first :
    operators.Pairwise fun first second =>
      (second.lexeme?.getD "").toList.length ≤ (first.lexeme?.getD "").toList.length := by
  decide

theorem ofKeyword?_eq_none {word : String} :
    ofKeyword? word = none ↔ ∀ kind ∈ keywords, kind.lexeme? ≠ some word := by
  simp [ofKeyword?, List.find?_eq_none]

theorem ofKeyword?_lexeme {word : String} {kind : TokenKind} (h : ofKeyword? word = some kind) :
    kind.lexeme? = some word := by
  simpa using List.find?_some h

theorem opens_iff {kind : TokenKind} {lexeme : String} {cs : List Char}
    (h : kind.lexeme? = some lexeme) : kind.opens cs = true ↔ lexeme.toList <+: cs := by
  rw [opens, h]
  exact List.isPrefixOf_iff_prefix

end TokenKind

namespace Cursor

open TokenKind (operators operatorAt?)

theorem isWordPart_of_isWordStart {c : Char} (h : isWordStart c) : isWordPart c := by
  rw [isWordStart, Bool.or_eq_true] at h
  rw [isWordPart, Char.isAlphanum]
  rcases h with h | h
  · rw [h, Bool.true_or, Bool.true_or]
  · rw [h, Bool.or_true]

theorem isDigit_of_isWordStart {c : Char} (h : isWordStart c) : c.isDigit = false := by
  rw [Bool.eq_false_iff]
  intro hdigit
  delta isWordStart Char.isAlpha Char.isUpper Char.isLower at h
  simp only [Char.isDigit, Bool.or_eq_true, Bool.and_eq_true, decide_eq_true_eq,
    UInt32.le_iff_toNat_le] at h hdigit
  change 48 ≤ c.val.toNat ∧ c.val.toNat ≤ 57 at hdigit
  rcases h with (h | h) | rfl
  · change 65 ≤ c.val.toNat ∧ c.val.toNat ≤ 90 at h
    omega
  · change 97 ≤ c.val.toNat ∧ c.val.toNat ≤ 122 at h
    omega
  · exact absurd hdigit (by decide)

section

variable {c : Char} {cs : List Char}

theorem lexemeAt_of_digit (h : c.isDigit) : lexemeAt (c :: cs) = number c cs :=
  if_pos h

theorem lexemeAt_of_wordStart (h : isWordStart c) : lexemeAt (c :: cs) = word c cs := by
  rw [lexemeAt, isDigit_of_isWordStart h, if_neg Bool.false_ne_true, if_pos h]

theorem lexemeAt_of_other (hdigit : c.isDigit = false) (hword : isWordStart c = false) :
    lexemeAt (c :: cs) = operator c cs := by
  rw [lexemeAt, hdigit, hword, if_neg Bool.false_ne_true, if_neg Bool.false_ne_true]

theorem number_eq (c : Char) (cs : List Char) :
    (∃ fraction, cs.dropWhile Char.isDigit = '.' :: fraction ∧ number c cs =
      (.float, c :: cs.takeWhile Char.isDigit ++ '.' :: fraction.takeWhile Char.isDigit)) ∨
    (∀ fraction, cs.dropWhile Char.isDigit ≠ '.' :: fraction) ∧
      number c cs = (.integer, c :: cs.takeWhile Char.isDigit) := by
  unfold number
  dsimp only
  split
  next fraction h => exact .inl ⟨fraction, h, rfl⟩
  next h => exact .inr ⟨h, rfl⟩

theorem operator_of_some {kind : TokenKind} (h : operatorAt? (c :: cs) = some kind) :
    ∃ lexeme, kind.lexeme? = some lexeme ∧ lexeme.toList <+: c :: cs ∧
      operator c cs = (kind, lexeme.toList) := by
  obtain ⟨lexeme, hlexeme, _⟩ := TokenKind.operator_first kind (List.mem_of_find?_eq_some h)
  have hopens : kind.opens (c :: cs) :=
    List.find?_some (p := fun kind : TokenKind => kind.opens (c :: cs)) h
  refine ⟨lexeme, hlexeme, (TokenKind.opens_iff hlexeme).1 hopens, ?_⟩
  simp only [operator, h, hlexeme, Option.getD_some]

theorem operator_of_none (h : operatorAt? (c :: cs) = none) : operator c cs = (.error, [c]) := by
  simp only [operator, h]

theorem lexemeAt_begins (cs : List Char) : (lexemeAt cs).2 <+: cs := by
  cases cs with
  | nil => exact List.prefix_refl _
  | cons c cs =>
    cases hdigit : c.isDigit with
    | true =>
      rw [lexemeAt_of_digit hdigit]
      rcases number_eq c cs with ⟨fraction, hfraction, hnumber⟩ | ⟨_, hnumber⟩
      · refine ⟨fraction.dropWhile Char.isDigit, ?_⟩
        rw [hnumber]
        simp only [List.cons_append, List.append_assoc, List.takeWhile_append_dropWhile]
        rw [← hfraction, List.takeWhile_append_dropWhile]
      · rw [hnumber]
        exact (List.prefix_append_right_inj [c]).2 (List.takeWhile_prefix _)
    | false =>
      cases hword : isWordStart c with
      | true =>
        rw [lexemeAt_of_wordStart hword]
        exact (List.prefix_append_right_inj [c]).2 (List.takeWhile_prefix _)
      | false =>
        rw [lexemeAt_of_other hdigit hword]
        cases h : operatorAt? (c :: cs) with
        | some kind =>
          obtain ⟨lexeme, _, hopens, hoperator⟩ := operator_of_some h
          rw [hoperator]
          exact hopens
        | none =>
          rw [operator_of_none h]
          exact ⟨cs, rfl⟩

end

end Cursor

namespace HasForm

open TokenKind (operators operatorAt?)

variable {kind : TokenKind} {c : Char} {cs lexeme : List Char}

theorem first (h : HasForm kind (c :: cs)) :
    c.isDigit = true ∨ Cursor.isWordStart c = true ∨
      kind ∈ operators ∧ c.isDigit = false ∧ Cursor.isWordStart c = false := by
  generalize hlexeme : c :: cs = lexeme at h
  cases h with
  | identifier hword _ =>
    subst hlexeme
    exact .inr (.inl (Bool.and_eq_true_iff.1 hword).1)
  | @fixed _ text htext =>
    rcases TokenKind.mem_of_lexeme? htext with hkind | hkind
    · obtain ⟨word, hword, hisWord⟩ := TokenKind.keyword_isWord kind hkind
      obtain rfl := Option.some.inj (hword.symm.trans htext)
      rw [← hlexeme] at hisWord
      exact .inr (.inl (Bool.and_eq_true_iff.1 hisWord).1)
    · obtain ⟨operator, hoperator, first, hfirst, hother⟩ := TokenKind.operator_first kind hkind
      obtain rfl := Option.some.inj (hoperator.symm.trans htext)
      rw [← hlexeme] at hfirst
      obtain rfl := Option.some.inj hfirst
      exact .inr (.inr ⟨hkind, hother⟩)
  | integer _ hdigits =>
    subst hlexeme
    exact .inl (List.all_eq_true.1 hdigits c List.mem_cons_self)
  | @float digits fraction hne hdigits _ =>
    cases digits with
    | nil => exact absurd rfl hne
    | cons digit digits =>
      obtain rfl := (List.cons.inj hlexeme).1
      exact .inl (List.all_eq_true.1 hdigits c List.mem_cons_self)

theorem ne_nil (h : HasForm kind lexeme) : lexeme ≠ [] := by
  cases h with
  | identifier hword _ =>
    rintro rfl
    nomatch hword
  | fixed htext =>
    rcases TokenKind.mem_of_lexeme? htext with hkind | hkind
    · obtain ⟨word, hword, hisWord⟩ := TokenKind.keyword_isWord kind hkind
      obtain rfl := Option.some.inj (hword.symm.trans htext)
      intro hnil
      rw [hnil] at hisWord
      nomatch hisWord
    · have hne := Cursor.operator_lexeme kind hkind
      rw [htext] at hne
      exact hne
  | integer hne _ => exact hne
  | float hne _ _ => simp

theorem word_length_le (hword : isWord lexeme) (hbegins : lexeme <+: cs) :
    lexeme.length ≤ (Cursor.lexemeAt cs).2.length := by
  cases lexeme with
  | nil => exact Nat.zero_le _
  | cons c letters =>
    obtain ⟨rest, rfl⟩ := hbegins
    obtain ⟨hstart, hletters⟩ := Bool.and_eq_true_iff.1 hword
    rw [List.cons_append, Cursor.lexemeAt_of_wordStart hstart]
    have hle := (prefix_takeWhile (List.prefix_append letters rest) hletters).length_le
    exact Nat.succ_le_succ hle

theorem digits_length_le {digits : List Char} (hne : digits ≠ []) (hdigits : digits.all Char.isDigit)
    (hbegins : digits <+: cs) : digits.length ≤ (Cursor.lexemeAt cs).2.length := by
  cases digits with
  | nil => exact absurd rfl hne
  | cons c digits =>
    obtain ⟨rest, rfl⟩ := hbegins
    obtain ⟨hdigit, hdigits⟩ := Bool.and_eq_true_iff.1 hdigits
    have hle := (prefix_takeWhile (List.prefix_append digits rest) hdigits).length_le
    rw [List.cons_append, Cursor.lexemeAt_of_digit hdigit]
    rcases Cursor.number_eq c (digits ++ rest) with ⟨fraction, _, hnumber⟩ | ⟨_, hnumber⟩
    · rw [hnumber, List.cons_append, List.length_cons, List.length_cons, List.length_append]
      omega
    · rw [hnumber]
      exact Nat.succ_le_succ hle

theorem float_length_le {digits fraction : List Char} (hne : digits ≠ [])
    (hdigits : digits.all Char.isDigit) (hfraction : fraction.all Char.isDigit)
    (hbegins : digits ++ '.' :: fraction <+: cs) :
    (digits ++ '.' :: fraction).length ≤ (Cursor.lexemeAt cs).2.length := by
  cases digits with
  | nil => exact absurd rfl hne
  | cons c digits =>
    obtain ⟨rest, rfl⟩ := hbegins
    obtain ⟨hdigit, hdigits⟩ := Bool.and_eq_true_iff.1 hdigits
    have hle := (prefix_takeWhile (List.prefix_append fraction rest) hfraction).length_le
    have hpoint : ¬ Char.isDigit '.' = true := by decide
    -- the digits end at the point
    have htake : (digits ++ '.' :: (fraction ++ rest)).takeWhile Char.isDigit = digits := by
      rw [List.takeWhile_append_of_pos (List.all_eq_true.1 hdigits), List.takeWhile_cons_of_neg hpoint,
        List.append_nil]
    have hdrop : (digits ++ '.' :: (fraction ++ rest)).dropWhile Char.isDigit =
        '.' :: (fraction ++ rest) := by
      rw [List.dropWhile_append_of_pos (List.all_eq_true.1 hdigits), List.dropWhile_cons_of_neg hpoint]
    rw [List.append_assoc, List.cons_append, List.cons_append, List.cons_append,
      Cursor.lexemeAt_of_digit hdigit]
    rcases Cursor.number_eq c (digits ++ '.' :: (fraction ++ rest)) with
      ⟨_, hother, hnumber⟩ | ⟨hnone, _⟩
    · rw [hdrop] at hother
      obtain rfl := (List.cons.inj hother).2
      rw [hnumber, htake]
      simp only [List.cons_append, List.length_cons, List.length_append]
      omega
    · exact absurd hdrop (hnone _)

theorem operator_length_le {text : String} (hkind : kind ∈ operators)
    (htext : kind.lexeme? = some text) (hbegins : text.toList <+: cs) :
    text.toList.length ≤ (Cursor.lexemeAt cs).2.length := by
  obtain ⟨_, hoperator, first, hfirst, hdigit, hword⟩ := TokenKind.operator_first kind hkind
  obtain rfl := Option.some.inj (hoperator.symm.trans htext)
  obtain ⟨tail, htail⟩ := List.head?_eq_some_iff.1 hfirst
  obtain ⟨rest, rfl⟩ := hbegins
  rw [htail, List.cons_append, Cursor.lexemeAt_of_other hdigit hword]
  have hopens : kind.opens (first :: (tail ++ rest)) = true :=
    (TokenKind.opens_iff htext).2 ⟨rest, by rw [htail, List.cons_append]⟩
  cases hfound : operatorAt? (first :: (tail ++ rest)) with
  | none => exact absurd hopens (List.find?_eq_none.1 hfound kind hkind)
  | some found =>
    obtain ⟨longest, hlongest, _, hlexeme⟩ := Cursor.operator_of_some hfound
    rw [hlexeme]
    -- what stands before the operator that is found does not open the text
    obtain ⟨_, before, after, hsplit, hbefore⟩ := List.find?_eq_some_iff_append.1 hfound
    have hsorted := TokenKind.operators_longest_first
    rw [hsplit] at hsorted hkind
    rcases List.mem_append.1 hkind with hmem | hmem
    · have hclosed := hbefore kind hmem
      rw [hopens] at hclosed
      nomatch hclosed
    · rcases List.mem_cons.1 hmem with rfl | hmem
      · obtain rfl := Option.some.inj (hlongest.symm.trans htext)
        exact Nat.le_of_eq (congrArg List.length htail.symm)
      · have hle := (List.pairwise_cons.1 (List.pairwise_append.1 hsorted).2.1).1 kind hmem
        rw [htext, hlongest, Option.getD_some, Option.getD_some, htail] at hle
        exact hle

/-- No text that has a form is longer than the one that is found. -/
theorem length_le (h : HasForm kind lexeme) (hbegins : lexeme <+: cs) :
    lexeme.length ≤ (Cursor.lexemeAt cs).2.length := by
  cases h with
  | identifier hword _ => exact word_length_le hword hbegins
  | fixed htext =>
    rcases TokenKind.mem_of_lexeme? htext with hkind | hkind
    · obtain ⟨word, hword, hisWord⟩ := TokenKind.keyword_isWord kind hkind
      obtain rfl := Option.some.inj (hword.symm.trans htext)
      exact word_length_le hisWord hbegins
    · exact operator_length_le hkind htext hbegins
  | integer hne hdigits => exact digits_length_le hne hdigits hbegins
  | float hne hdigits hfraction => exact float_length_le hne hdigits hfraction hbegins

end HasForm

namespace Cursor

open TokenKind (operatorAt?)

variable {c : Char} {cs : List Char}

theorem number_hasForm (h : c.isDigit) : HasForm (number c cs).1 (number c cs).2 := by
  have hdigits : (c :: cs.takeWhile Char.isDigit).all Char.isDigit :=
    Bool.and_eq_true_iff.2 ⟨h, List.all_takeWhile⟩
  rcases number_eq c cs with ⟨fraction, _, hnumber⟩ | ⟨_, hnumber⟩
  · rw [hnumber]
    exact .float (List.cons_ne_nil _ _) hdigits List.all_takeWhile
  · rw [hnumber]
    exact .integer (List.cons_ne_nil _ _) hdigits

theorem word_hasForm (h : isWordStart c) : HasForm (word c cs).1 (word c cs).2 := by
  unfold word
  dsimp only
  cases hkeyword : TokenKind.ofKeyword? (String.ofList (c :: cs.takeWhile isWordPart)) with
  | none =>
    have hword : isWord (c :: cs.takeWhile isWordPart) :=
      Bool.and_eq_true_iff.2 ⟨h, List.all_takeWhile⟩
    exact .identifier hword (TokenKind.ofKeyword?_eq_none.1 hkeyword)
  | some kind =>
    have hfixed := HasForm.fixed (TokenKind.ofKeyword?_lexeme hkeyword)
    rw [String.toList_ofList] at hfixed
    exact hfixed

theorem unrecognised (hdigit : c.isDigit = false) (hword : isWordStart c = false)
    (h : operatorAt? (c :: cs) = none) (kind : TokenKind) : ¬ HasForm kind [c] := by
  intro hform
  rcases hform.first with hfirst | hfirst | ⟨hkind, _⟩
  · exact absurd hfirst (Bool.eq_false_iff.1 hdigit)
  · exact absurd hfirst (Bool.eq_false_iff.1 hword)
  · have hlexeme : kind.lexeme? = some (String.ofList [c]) := by
      generalize htext : [c] = text at hform
      cases hform with
      | fixed hfixed => rw [String.ofList_toList, hfixed]
      | _ => exact absurd hkind (by decide)
    have hopens : kind.opens (c :: cs) = true :=
      (TokenKind.opens_iff hlexeme).2 (by rw [String.toList_ofList]; exact ⟨cs, rfl⟩)
    exact absurd hopens (List.find?_eq_none.1 h kind hkind)

theorem lexemeAt_form (c : Char) (cs : List Char) :
    HasForm (lexemeAt (c :: cs)).1 (lexemeAt (c :: cs)).2 ∨
      (lexemeAt (c :: cs)).1 = .error ∧
        ∃ d, (lexemeAt (c :: cs)).2 = [d] ∧ ∀ other, ¬ HasForm other [d] := by
  cases hdigit : c.isDigit with
  | true =>
    rw [lexemeAt_of_digit hdigit]
    exact .inl (number_hasForm hdigit)
  | false =>
    cases hword : isWordStart c with
    | true =>
      rw [lexemeAt_of_wordStart hword]
      exact .inl (word_hasForm hword)
    | false =>
      rw [lexemeAt_of_other hdigit hword]
      cases h : operatorAt? (c :: cs) with
      | some kind =>
        obtain ⟨lexeme, hlexeme, _, hoperator⟩ := operator_of_some h
        rw [hoperator]
        exact .inl (.fixed hlexeme)
      | none =>
        rw [operator_of_none h]
        exact .inr ⟨rfl, c, rfl, unrecognised hdigit hword h⟩

theorem lexemeAt_isLexeme (c : Char) (cs : List Char) :
    IsLexeme (lexemeAt (c :: cs)).1 (lexemeAt (c :: cs)).2
      ((c :: cs).drop (lexemeAt (c :: cs)).2.length) := by
  refine ⟨lexemeAt_form c cs, fun longer hbegins hlonger kind hform => ?_⟩
  have hwhole := List.prefix_iff_eq_append.1 (lexemeAt_begins (c :: cs))
  rw [hwhole] at hbegins
  exact absurd (hform.length_le hbegins) (Nat.not_le.2 hlonger)

end Cursor

namespace TokenKind

theorem keyword_lexemeAt : ∀ kind ∈ keywords, ∀ lexeme, kind.lexeme? = some lexeme →
    Cursor.lexemeAt lexeme.toList = (kind, lexeme.toList) := by
  decide

theorem operator_lexemeAt : ∀ kind ∈ operators, ∀ lexeme, kind.lexeme? = some lexeme →
    Cursor.lexemeAt lexeme.toList = (kind, lexeme.toList) := by
  decide

end TokenKind

theorem HasForm.lexemeAt_eq {kind : TokenKind} {lexeme : List Char} (h : HasForm kind lexeme) :
    Cursor.lexemeAt lexeme = (kind, lexeme) := by
  have hlexeme : (Cursor.lexemeAt lexeme).2 = lexeme :=
    (Cursor.lexemeAt_begins lexeme).eq_of_length_le (h.length_le (List.prefix_refl lexeme))
  have hpoint : ¬ Char.isDigit '.' = true := by decide
  refine Prod.ext ?_ hlexeme
  cases h with
  | identifier hword hkeyword =>
    cases lexeme with
    | nil => nomatch hword
    | cons c cs =>
      rw [Cursor.lexemeAt_of_wordStart (Bool.and_eq_true_iff.1 hword).1] at hlexeme ⊢
      change (TokenKind.ofKeyword? (String.ofList (Cursor.word c cs).2)).getD .identifier = _
      rw [hlexeme, TokenKind.ofKeyword?_eq_none.2 hkeyword, Option.getD_none]
  | fixed htext =>
    rcases TokenKind.mem_of_lexeme? htext with hkind | hkind
    · rw [TokenKind.keyword_lexemeAt kind hkind _ htext]
    · rw [TokenKind.operator_lexemeAt kind hkind _ htext]
  | integer hne hdigits =>
    cases lexeme with
    | nil => exact absurd rfl hne
    | cons c cs =>
      rw [Cursor.lexemeAt_of_digit (Bool.and_eq_true_iff.1 hdigits).1] at hlexeme ⊢
      rcases Cursor.number_eq c cs with ⟨fraction, _, hnumber⟩ | ⟨_, hnumber⟩
      · -- there is no point among the digits
        rw [hnumber] at hlexeme
        rw [← hlexeme] at hdigits
        exact absurd (List.all_eq_true.1 hdigits '.' (by simp)) hpoint
      · rw [hnumber]
  | @float digits fraction hne hdigits hfraction =>
    cases digits with
    | nil => exact absurd rfl hne
    | cons c cs =>
      have hdigit := (Bool.and_eq_true_iff.1 hdigits).1
      rw [List.cons_append, Cursor.lexemeAt_of_digit hdigit] at hlexeme ⊢
      rcases Cursor.number_eq c (cs ++ '.' :: fraction) with ⟨_, _, hnumber⟩ | ⟨_, hnumber⟩
      · rw [hnumber]
      · rw [hnumber] at hlexeme
        have hall : (c :: (cs ++ '.' :: fraction)).all Char.isDigit := by
          rw [← hlexeme]
          exact Bool.and_eq_true_iff.2 ⟨hdigit, List.all_takeWhile⟩
        exact absurd (List.all_eq_true.1 hall '.' (by simp)) hpoint

/-- Each kind has texts of its own. -/
theorem HasForm.kind_unique {kind other : TokenKind} {lexeme : List Char} (h : HasForm kind lexeme)
    (hother : HasForm other lexeme) : kind = other :=
  congrArg Prod.fst (h.lexemeAt_eq.symm.trans hother.lexemeAt_eq)

theorem IsLexeme.kind_unique {kind other : TokenKind} {lexeme rest : List Char}
    (h : IsLexeme kind lexeme rest) (hother : IsLexeme other lexeme rest) : kind = other := by
  rcases h.form with hform | ⟨rfl, c, rfl, hnone⟩
  · rcases hother.form with hform' | ⟨_, c, rfl, hnone⟩
    · exact hform.kind_unique hform'
    · exact absurd hform (hnone kind)
  · rcases hother.form with hform' | ⟨rfl, _⟩
    · exact absurd hform' (hnone other)
    · rfl

theorem IsLexeme.length_pos {kind : TokenKind} {lexeme rest : List Char}
    (h : IsLexeme kind lexeme rest) : 0 < lexeme.length := by
  rcases h.form with hform | ⟨_, c, rfl, _⟩
  · exact List.length_pos_iff.2 hform.ne_nil
  · exact Nat.one_pos

theorem IsLexeme.length_le {kind other : TokenKind} {lexeme lexeme' rest rest' : List Char}
    (h : IsLexeme kind lexeme rest) (hother : IsLexeme other lexeme' rest')
    (heq : lexeme ++ rest = lexeme' ++ rest') : lexeme.length ≤ lexeme'.length := by
  rcases h.form with hform | ⟨_, c, rfl, _⟩
  · refine Nat.not_lt.1 fun hlt => ?_
    have hbegins : lexeme <+: lexeme' ++ rest' := heq ▸ List.prefix_append lexeme rest
    exact hother.maximal lexeme hbegins hlt kind hform
  · exact hother.length_pos

theorem IsLexeme.unique {kind other : TokenKind} {lexeme lexeme' rest rest' : List Char}
    (h : IsLexeme kind lexeme rest) (hother : IsLexeme other lexeme' rest')
    (heq : lexeme ++ rest = lexeme' ++ rest') : kind = other ∧ lexeme = lexeme' ∧ rest = rest' := by
  have hlength := Nat.le_antisymm (h.length_le hother heq) (hother.length_le h heq.symm)
  obtain ⟨rfl, rfl⟩ := List.append_inj heq hlength
  exact ⟨h.kind_unique hother, rfl, rfl⟩

end MipsCompiler
