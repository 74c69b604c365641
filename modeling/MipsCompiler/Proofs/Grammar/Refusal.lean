import MipsCompiler.Proofs.Grammar.Soundness
import MipsCompiler.Proofs.Grammar.Tracking
import MipsCompiler.Proofs.Parsing.TwoRuns

set_option autoImplicit false

/-!
# Where parsers stop

Each parser tracks the rule of its category: its choices are those that the next token makes by the
rule, its loops go on for as long as the rule predicts, and a number out of range halts it behind that
number.
-/

namespace MipsCompiler

theorem Ebnf.find?_token {kinds : List TokenKind} {kind : TokenKind} (h : kind ∈ kinds) :
    (kinds.map token).find? (opens kind) = some (token kind) := by
  induction kinds with
  | nil => cases h
  | cons first kinds ih =>
    rw [List.map_cons, List.find?_cons]
    by_cases hfirst : first = kind
    · rw [opens, decide_eq_true hfirst, hfirst]
    · rw [opens, decide_eq_false hfirst]
      exact ih ((List.mem_cons.1 h).resolve_left (Ne.symm hfirst))

/-- A token of a declaration is in range, as its first token says. -/
def Token.DeclFits (first token : Token) : Prop :=
  token.FloatFits ∧ (first.kind = .arrayKw → token.ExtentFits)

namespace Parser

open Token (FloatFits ArrayFits)

variable {σ : Type} [TokenStream σ]

theorem floatFits_of_ne {token : Token} {kind : TokenKind} (hkind : kind ≠ .float)
    (h : token.kind = kind) : token.FloatFits :=
  fun hfloat => absurd (h.symm.trans hfloat) hkind

namespace Tracks

variable {n : Nat} {pre : Token → Prop}

theorem keyword {kind : TokenKind} (hkind : kind ∉ [.eof, .float]) :
    Tracks (σ := σ) FloatFits n pre (Parser.expect kind) (.token kind) := by
  simp only [List.mem_cons, List.not_mem_nil, or_false, not_or] at hkind
  exact expect hkind.1 fun _ _ => floatFits_of_ne hkind.2

theorem advance_keyword {kind : TokenKind} (hkind : kind ∉ [.eof, .float])
    (hpre : ∀ token, pre token → token.kind = kind) :
    Tracks (σ := σ) FloatFits n pre Parser.advance (.token kind) := by
  simp only [List.mem_cons, List.not_mem_nil, or_false, not_or] at hkind
  exact advance hkind.1 fun token htoken =>
    ⟨hpre token htoken, floatFits_of_ne hkind.2 (hpre token htoken)⟩

theorem advance_tokens {c : Category} {kinds : List TokenKind}
    (hrule : c.rule = .choice (kinds.map .token)) (hkinds : ∀ kind ∈ kinds, kind ∉ [.eof, .float])
    (hpre : ∀ token, pre token → token.kind ∈ kinds) :
    Tracks (σ := σ) FloatFits n pre Parser.advance (.category c) := by
  refine by_token fun token htoken => category ?_
  have hkind := hpre token htoken
  rw [hrule]
  refine (advance_keyword (hkinds _ hkind) ?_).choice ?_
  · rintro _ rfl
    rfl
  · rintro _ rfl
    exact Ebnf.find?_token hkind

theorem alternative {α : Type} {p : Parser σ α} {kind : TokenKind} {alternatives : List Ebnf} {e : Ebnf}
    {fits : Token → Prop} (h : Tracks fits n (fun token => token.kind = kind) p e)
    (hfind : alternatives.find? (Ebnf.opens kind) = some e) {token : Token}
    (htoken : token.kind = kind) :
    Tracks fits n (fun next => next = token) p (.choice alternatives) := by
  refine (h.whenever ?_).choice ?_
  · rintro _ rfl
    exact htoken
  · rintro _ rfl
    rw [htoken, hfind]

end Tracks

theorem operators_first (tier : Tier) : tier.operators.category.first = tier.operators.first := by
  cases tier <;> rfl

theorem operators_open (tier : Tier) (kind : TokenKind) :
    (Ebnf.category tier.operators.category).opens kind = (tier.operator? kind).isSome := by
  rw [Bool.eq_iff_iff, tier.operator?_isSome, ← operators_first]
  exact List.contains_iff_mem

/-! ## Expressions -/

section

variable {n : Nat} {operand : Parser σ Expr}

theorem binary_tracks (tier : Tier) {item : Category} {p : Parser σ Expr}
    (hp : Tracks FloatFits n (fun _ => True) p (.category item)) (left : Expr) (op : BinaryOp) :
    Tracks FloatFits n (fun token => tier.operator? token.kind = some op) (binary p left op)
      (.sequence [.category tier.operators.category, .category item]) := by
  have hkinds : ∀ kind ∈ tier.operators.first, kind ∉ [TokenKind.eof, .float] := by
    cases tier <;> decide
  refine (Tracks.advance_tokens tier.operators_rule hkinds fun token hop => ?_).bind fun token => ?_
  · rw [← tier.operator?_isSome, hop]
    rfl
  · exact hp.bind fun right => .done (.bind .freshNode fun node => .pure _)

theorem chain_tracks {tier : Tier} {c item : Category} {p : Parser σ Expr}
    (hrule : c.rule = .sequence [.category item,
      .repeated (.sequence [.category tier.operators.category, .category item])])
    (hp : Tracks FloatFits n (fun _ => True) p (.category item)) :
    Tracks FloatFits n (fun _ => True) (chain tier p) (.category c) := by
  refine .category (hrule ▸ hp.bind fun first => .single ?_)
  exact .extended (.sequence (Nonterminal.startsIn_first tier.operators)) rfl (operators_open tier)
    (operator?_eof tier) (fun left op => binary_tracks tier hp left op) first

variable (hoperand : Tracks FloatFits n (fun _ => True) operand (.category .operand))

include hoperand

theorem sum_tracks : Tracks FloatFits n (fun _ => True) (sum operand) (.category .sum) := by
  have hproduct : Tracks FloatFits n (fun _ => True) (chain .product operand) (.category .product) :=
    chain_tracks rfl hoperand
  exact chain_tracks rfl hproduct

theorem comparison_tracks :
    Tracks FloatFits n (fun _ => True) (comparison operand) (.category .expression) := by
  have hsum := sum_tracks hoperand
  refine .category (hsum.bind fun left => .single (.peek fun token _ => ?_))
  have hopens := operators_open .comparison token.kind
  cases hop : Tier.comparison.operator? token.kind with
  | none =>
    refine .absent (.pure _) ?_
    rintro _ rfl
    exact hopens.trans (by rw [hop]; rfl)
  | some op =>
    refine ((binary_tracks .comparison hsum left op).whenever ?_).present ?_
    · rintro _ rfl
      exact hop
    · rintro _ rfl
      exact hopens.trans (by rw [hop]; rfl)

theorem subscript_tracks (name : Token) (base : Expr) :
    Tracks FloatFits n (fun token => token.kind = .openBracket) (subscript operand name base)
      (.sequence [.token .openBracket, .category .expression, .token .closeBracket]) := by
  refine (Tracks.advance_keyword (by decide) fun _ h => h).bind fun _ => ?_
  refine (comparison_tracks hoperand).bind fun offset => ?_
  exact (Tracks.keyword (by decide)).bind fun _ => .done (.bind .freshNode fun node => .pure _)

end

section

variable {n : Nat} {pre : Token → Prop} {operand : Parser σ Expr}
  (hoperand : Tracks FloatFits (n - 1) (fun _ => True) operand (.category .operand))

include hoperand

theorem designator_tracks : Tracks FloatFits n pre (designator operand) (.category .designator) := by
  refine .category ((Tracks.keyword (by decide)).bind_next fun name => ?_)
  refine .idle_bind .resolve fun symbol => .idle_bind .freshNode fun node => .single ?_
  refine .extended (.sequence (.token (List.mem_singleton_self TokenKind.openBracket))) rfl ?_ rfl
    (fun base _ => ?_) _
  · intro kind
    by_cases hkind : kind = .openBracket
    · rw [if_pos hkind, hkind]
      rfl
    · rw [if_neg hkind]
      exact decide_eq_false (Ne.symm hkind)
  · refine (subscript_tracks hoperand name base).whenever fun token hchoice => ?_
    by_cases hkind : token.kind = .openBracket
    · exact hkind
    · rw [if_neg hkind] at hchoice
      cases hchoice

theorem callParts_tracks : Tracks FloatFits n pre (callParts operand) (.category .call) := by
  refine .category ((Tracks.keyword (by decide)).bind_next fun token => ?_)
  refine (Tracks.keyword (by decide)).bind fun name => .idle_bind .resolve fun callee => ?_
  refine (Tracks.keyword (by decide)).bind fun _ => ?_
  have hargs : Tracks FloatFits (n - 1) (fun _ => True)
      (optionalList .expression (comparison operand)) (.category .arguments) :=
    .category (.optionalList (fun _ => floatFits_of_ne (by decide)) (fun _ => rfl)
      (comparison_tracks hoperand))
  refine hargs.bind fun args => (Tracks.keyword (by decide)).bind fun _ => ?_
  exact .done (.bind .freshNode fun node => .pure _)

theorem negation_tracks :
    Tracks FloatFits n (fun token => token.kind = .notKw) (negation operand)
      (.sequence [.token .notKw, .category .operand]) := by
  refine (Tracks.advance_keyword (by decide) fun _ h => h).bind_next fun token => ?_
  exact hoperand.bind fun inner => .done (.bind .freshNode fun node => .pure _)

theorem parenthesized_tracks :
    Tracks FloatFits n (fun token => token.kind = .openParen) (parenthesized operand)
      (.sequence [.token .openParen, .category .expression, .token .closeParen]) := by
  refine (Tracks.advance_keyword (by decide) fun _ h => h).bind_next fun _ => ?_
  refine (comparison_tracks hoperand).bind fun inner => ?_
  exact (Tracks.keyword (by decide)).bind fun _ => .pure _

theorem load_tracks : Tracks FloatFits n pre (load operand) (.category .designator) := by
  refine .peek fun token _ => (designator_tracks hoperand).bind_idle fun place => ?_
  exact .bind .freshNode fun node => .pure _

theorem callExpression_tracks :
    Tracks FloatFits n pre (callExpression operand) (.category .call) :=
  (callParts_tracks hoperand).bind_idle fun _ => .pure _

end

omit [TokenStream σ] in
theorem literalValue_idles {token : Token} (h : token.FloatFits) :
    Idles (literalValue (σ := σ) token) := by
  unfold literalValue
  split
  · exact .pure _
  · next hfloat =>
    obtain ⟨value, hvalue⟩ := Option.isSome_iff_exists.1 (h hfloat)
    rw [hvalue]
    exact .pure _
  · exact .pure _
  · exact .pure _

theorem literal_tracks {n : Nat} :
    Tracks (σ := σ) FloatFits n (fun token => Nonterminal.literal.starts token.kind) literal
      (.category .literal) := by
  refine .by_token fun token hstarts => .category ?_
  have hmem : token.kind ∈ Nonterminal.literalFirst := List.contains_iff_mem.1 hstarts
  have hfind := Ebnf.find?_token hmem
  have heof : token.kind ≠ .eof := by
    intro heof
    rw [heof] at hmem
    exact absurd hmem (by decide)
  by_cases hfits : token.FloatFits
  · have hadvance : Tracks (σ := σ) FloatFits n (fun next => next = token) advance
        (.token token.kind) := by
      refine .advance heof ?_
      rintro _ rfl
      exact ⟨rfl, hfits⟩
    have hread : Tracks FloatFits n (fun next => next = token) (do
        let _ ← advance
        let value ← literalValue token
        let node ← freshNode token.pos
        return .literal node value : Parser σ Expr) (.token token.kind) :=
      hadvance.bind_idle fun _ => .bind (literalValue_idles hfits) fun value =>
        .bind .freshNode fun node => .pure _
    refine (hread.congr ?_).choice ?_
    · rintro s rfl
      rfl
    · rintro _ rfl
      exact hfind
  · obtain ⟨hfloat, hnone⟩ := Classical.not_imp.1 hfits
    have hnone := Option.not_isSome_iff_eq_none.1 hnone
    refine .halt ?_ ?_
    · rintro s rfl
      refine bind_error.2 (.inr ⟨s.token, s.advance, rfl, bind_error.2 (.inl ?_)⟩)
      unfold literalValue
      simp only [hfloat, hnone]
      rfl
    · rintro _ rfl
      exact ⟨hfits, heof, .choice hfind .halt rfl⟩

theorem operand_find?_literal {kind : TokenKind} (h : Nonterminal.literal.starts kind) :
    List.find? (Ebnf.opens kind) [.sequence [.token .notKw, .category .operand],
      .sequence [.token .openParen, .category .expression, .token .closeParen],
      .category .designator, .category .call, .category .literal] = some (.category .literal) := by
  have hmem : kind ∈ Nonterminal.literalFirst := List.contains_iff_mem.1 h
  simp only [Nonterminal.literalFirst, List.mem_cons, List.not_mem_nil, or_false] at hmem
  rcases hmem with rfl | rfl | rfl | rfl <;> rfl

/-- Where the rule is a choice, a token that begins no alternative is refused. -/
theorem choice_refused {c : Category} (hc : c ∈ [.operand, .statement, .declaration])
    {kind : TokenKind} (h : c.first.contains kind = false) :
    Predicts c.rule [] (.refused kind) := by
  simp only [List.mem_cons, List.not_mem_nil, or_false] at hc
  rcases hc with rfl | rfl | rfl
  all_goals
    refine .noChoice (Option.isNone_iff_eq_none.1 ?_)
    revert h
    cases kind <;> decide

theorem operand_tracks (n : Nat) :
    Tracks (σ := σ) FloatFits n (fun _ => True) (operand n) (.category .operand) := by
  induction n with
  | zero =>
    refine .at_end (.refuse fun token hkind => .category (choice_refused (by simp) ?_))
    rw [hkind]
    rfl
  | succ n ih =>
    refine .peek fun token _ => .category ?_
    split
    · next hkind => exact (negation_tracks (n := n + 1) ih).alternative rfl hkind
    · next hkind => exact (parenthesized_tracks (n := n + 1) ih).alternative rfl hkind
    · next hkind => exact (load_tracks (n := n + 1) ih).alternative rfl hkind
    · next hkind => exact (callExpression_tracks (n := n + 1) ih).alternative rfl hkind
    · next hnot hparen hname hcall =>
      split
      · next hstarts =>
        refine (literal_tracks.whenever ?_).choice ?_
        · rintro _ rfl
          exact hstarts
        · rintro _ rfl
          exact operand_find?_literal hstarts
      · next hstarts =>
        refine .refuse ?_
        rintro _ rfl
        refine choice_refused (by simp) (Bool.eq_false_iff.2 fun hfirst => ?_)
        rcases List.mem_append.1 (List.contains_iff_mem.1 hfirst) with hmem | hmem
        · simp only [List.mem_cons, List.not_mem_nil, or_false] at hmem
          rcases hmem with h | h | h | h
          · exact hnot h
          · exact hparen h
          · exact hname h
          · exact hcall h
        · exact hstarts (List.contains_iff_mem.2 hmem)

theorem expression_tracks {n : Nat} {pre : Token → Prop} :
    Tracks (σ := σ) FloatFits n pre expression (.category .expression) :=
  .remaining fun r _ => (comparison_tracks (operand_tracks r)).whenever fun _ _ => trivial

/-! ## Statements -/

theorem typeName_tracks {fits : Token → Prop} {n : Nat} {pre : Token → Prop}
    (hfits : ∀ token : Token, token.kind = .identifier → fits token) :
    Tracks (σ := σ) fits n pre typeName (.category .typeName) :=
  .category ((Tracks.expect (by decide) fun _ _ => hfits _).bind_idle fun _ => .pure _)

section

variable {n : Nat} {pre : Token → Prop}

theorem variableDecl_tracks :
    Tracks (σ := σ) FloatFits n pre variableDecl (.category .variableDecl) := by
  refine .category ((Tracks.keyword (by decide)).bind fun token => ?_)
  refine (Tracks.keyword (by decide)).bind fun name => .idle_bind .declare fun symbol => ?_
  refine (Tracks.keyword (by decide)).bind fun _ => ?_
  refine (typeName_tracks fun _ => floatFits_of_ne (by decide)).bind fun ty => ?_
  refine .idle_bind .retype fun _ => (Tracks.keyword (by decide)).bind fun _ => ?_
  exact .done (.bind .freshNode fun node => .pure _)

theorem callStatement_tracks :
    Tracks (σ := σ) FloatFits n pre callStatement (.category .callStatement) := by
  refine .category (.remaining fun r _ => ?_)
  have hcall : Tracks (σ := σ) FloatFits r pre (callParts (operand r)) (.category .call) :=
    callParts_tracks ((operand_tracks r).within (Nat.sub_le r 1))
  exact hcall.bind fun _ => (Tracks.keyword (by decide)).bind fun _ => .pure _

theorem assignment_tracks :
    Tracks (σ := σ) FloatFits n pre assignment (.category .assignment) := by
  refine .category ((Tracks.keyword (by decide)).bind fun token => .remaining fun r _ => ?_)
  refine (designator_tracks ((operand_tracks r).within (Nat.sub_le r 1))).bind fun target => ?_
  refine (Tracks.keyword (by decide)).bind fun _ => expression_tracks.bind fun source => ?_
  exact (Tracks.keyword (by decide)).bind fun _ => .done (.bind .freshNode fun node => .pure _)

theorem returnStatement_tracks :
    Tracks (σ := σ) FloatFits n pre returnStatement (.category .returnStatement) := by
  refine .category ((Tracks.keyword (by decide)).bind fun token => ?_)
  refine expression_tracks.bind fun value => (Tracks.keyword (by decide)).bind fun _ => ?_
  exact .done (.bind .freshNode fun node => .pure _)

end

section

variable {n : Nat} {pre : Token → Prop} {statement : Parser σ Stmt}
  (hstatement : Tracks FloatFits n (fun _ => True) statement (.category .statement))

include hstatement

theorem block_tracks (ownScope : Bool) :
    Tracks FloatFits n pre (block ownScope statement) (.category .block) := by
  have hstmts : Tracks FloatFits n (fun _ => True) (repeated Nonterminal.statement.starts statement)
      (.category .statements) :=
    .category (.repeated Nonterminal.statement_startsIn rfl (fun _ => rfl) rfl
      (hstatement.whenever fun _ _ => trivial))
  have hclose (token : Token) (stmts : List Stmt) : Tracks FloatFits n (fun _ => True) (do
      let _ ← expect .closeBrace
      let node ← freshNode token.pos
      return .mk node stmts : Parser σ Block) (.sequence [.token .closeBrace]) :=
    (Tracks.keyword (by decide)).bind fun _ => .done (.bind .freshNode fun node => .pure _)
  refine .category ((Tracks.keyword (by decide)).bind fun token => ?_)
  cases ownScope with
  | false => exact hstmts.bind fun stmts => hclose token stmts
  | true =>
    refine .idle_bind .enterScope fun _ => hstmts.bind fun stmts => ?_
    exact .idle_bind .exitScope fun _ => hclose token stmts

theorem elseBlock_tracks :
    Tracks FloatFits n pre (elseBlock statement)
      (.optional (.sequence [.token .elseKw, .category .block])) := by
  refine .peek fun token _ => ?_
  split
  · next hkind =>
    have helse : Tracks (σ := σ) FloatFits n (fun next => next = token) advance (.token .elseKw) := by
      refine .advance_keyword (by decide) ?_
      rintro _ rfl
      exact hkind
    refine (helse.bind fun _ => (block_tracks hstatement true).single).present ?_
    rintro _ rfl
    exact decide_eq_true hkind.symm
  · next hkind =>
    refine .absent (.bind .freshNode fun node => .pure _) ?_
    rintro _ rfl
    exact decide_eq_false (Ne.symm hkind)

end

section

variable {n : Nat} {pre : Token → Prop} {statement : Parser σ Stmt}
  (hstatement : Tracks FloatFits (n - 1) (fun _ => True) statement (.category .statement))

include hstatement

theorem ifStatement_tracks :
    Tracks FloatFits n pre (ifStatement statement) (.category .ifStatement) := by
  refine .category ((Tracks.keyword (by decide)).bind_next fun token => ?_)
  refine expression_tracks.bind fun condition => ?_
  refine (block_tracks hstatement true).bind fun taken => ?_
  refine (elseBlock_tracks hstatement).bind fun otherwise => ?_
  exact .done (.bind .freshNode fun node => .pure _)

theorem whileStatement_tracks :
    Tracks FloatFits n pre (whileStatement statement) (.category .whileStatement) := by
  refine .category ((Tracks.keyword (by decide)).bind_next fun token => ?_)
  refine expression_tracks.bind fun condition => ?_
  refine (block_tracks hstatement true).bind fun body => ?_
  exact .done (.bind .freshNode fun node => .pure _)

end

theorem statement_tracks (n : Nat) :
    Tracks (σ := σ) FloatFits n (fun _ => True) (statement n) (.category .statement) := by
  induction n with
  | zero =>
    refine .at_end (.refuse fun token hkind => .category (choice_refused (by simp) ?_))
    rw [hkind]
    rfl
  | succ n ih =>
    refine .peek fun token _ => .category ?_
    split
    · next hkind =>
      exact (variableDecl_tracks.bind_idle fun _ => .pure _).alternative rfl hkind
    · next hkind => exact callStatement_tracks.alternative rfl hkind
    · next hkind => exact assignment_tracks.alternative rfl hkind
    · next hkind => exact (ifStatement_tracks (n := n + 1) ih).alternative rfl hkind
    · next hkind => exact (whileStatement_tracks (n := n + 1) ih).alternative rfl hkind
    · next hkind => exact returnStatement_tracks.alternative rfl hkind
    · next hvar hcall hlet hif hwhile hreturn =>
      refine .refuse ?_
      rintro _ rfl
      refine choice_refused (by simp) (Bool.eq_false_iff.2 fun hfirst => ?_)
      have hmem := List.contains_iff_mem.1 hfirst
      simp only [Category.first, Nonterminal.first, List.mem_cons, List.not_mem_nil, or_false] at hmem
      rcases hmem with h | h | h | h | h | h
      · exact hvar h
      · exact hcall h
      · exact hlet h
      · exact hif h
      · exact hwhile h
      · exact hreturn h

/-! ## Declarations -/

section

variable {n : Nat} {pre : Token → Prop}

theorem arrayFits_of_ne {token : Token} {kind : TokenKind} (hkind : kind ∉ [.float, .integer])
    (h : token.kind = kind) : token.ArrayFits := by
  simp only [List.mem_cons, List.not_mem_nil, or_false, not_or] at hkind
  exact ⟨floatFits_of_ne hkind.1 h, fun hinteger => absurd (h.symm.trans hinteger) hkind.2⟩

theorem Tracks.array_keyword {kind : TokenKind} (hkind : kind ∉ [.eof, .float, .integer]) :
    Tracks (σ := σ) ArrayFits n pre (Parser.expect kind) (.token kind) := by
  obtain ⟨heof, hkind⟩ := not_or.1 (mt List.mem_cons.2 hkind)
  exact expect heof fun _ _ => arrayFits_of_ne hkind

theorem expect_bind {α : Type} {kind : TokenKind} {f : Token → Parser σ α} {s : ParseState σ} :
    (expect kind >>= f) s = if s.token.kind = kind then f s.token s.advance else
      .error (.unexpected s.token.pos kind.name s.token.kind.name) s := by
  change ((if s.token.kind = kind then advance else refuse kind.name) >>= f) s = _
  split <;> rfl

theorem extent_tracks :
    Tracks (σ := σ) ArrayFits n pre extent
      (.sequence [.token .openBracket, .token .integer, .token .closeBracket]) := by
  refine (Tracks.array_keyword (by decide)).bind fun _ => .by_token fun token _ => ?_
  cases hextent : Numeral.extent? token.lexeme with
  | some value =>
    have hfits : token.kind = .integer → token.ArrayFits := fun hkind =>
      ⟨floatFits_of_ne (by decide) hkind, fun _ => by rw [hextent]; rfl⟩
    have hread : Tracks ArrayFits n (fun next => next = token) (do
        let _ ← expect .integer
        let _ ← expect .closeBracket
        return value : Parser σ Nat) (.sequence [.token .integer, .token .closeBracket]) := by
      refine (Tracks.expect (by decide) ?_).bind fun _ =>
        (Tracks.array_keyword (by decide)).bind fun _ => .pure _
      rintro _ rfl
      exact hfits
    refine hread.congr ?_
    rintro s rfl
    rw [expect_bind, expect_bind, hextent]
  | none =>
    by_cases hkind : token.kind = .integer
    · refine .halt ?_ ?_
      · rintro s rfl
        rw [expect_bind, if_pos hkind, hextent]
        rfl
      · rintro _ rfl
        refine ⟨fun hfits => ?_, hkind ▸ by decide, hkind ▸ .stop .halt rfl⟩
        have hsome := hfits.2 hkind
        rw [hextent] at hsome
        cases hsome
    · have hrefuse : Tracks (σ := σ) (α := Nat) ArrayFits n (fun next => next = token)
          (refuse TokenKind.integer.name) (.sequence [.token .integer, .token .closeBracket]) := by
        refine .refuse ?_
        rintro _ rfl
        exact .stop (.wrong hkind) rfl
      refine hrefuse.congr ?_
      rintro s rfl
      rw [expect_bind, if_neg hkind]
      rfl

theorem arrayDecl_tracks :
    Tracks (σ := σ) ArrayFits n pre arrayDecl (.category .arrayDecl) := by
  have hextents : Tracks (σ := σ) ArrayFits n (fun _ => True)
      (repeated (fun kind => kind = .openBracket) extent)
      (.repeated (.sequence [.token .openBracket, .token .integer, .token .closeBracket])) :=
    .repeated (.sequence (.token (List.mem_singleton_self TokenKind.openBracket))) rfl
      (fun _ => decide_eq_decide.2 eq_comm) rfl extent_tracks
  refine .category ((Tracks.array_keyword (by decide)).bind fun token => ?_)
  refine (Tracks.array_keyword (by decide)).bind fun name => .idle_bind .declare fun symbol => ?_
  refine (Tracks.array_keyword (by decide)).bind fun _ => ?_
  refine (typeName_tracks fun _ => arrayFits_of_ne (by decide)).bind fun base => ?_
  refine extent_tracks.bind_append fun outermost => hextents.bind fun inner => ?_
  refine (Tracks.array_keyword (by decide)).bind fun _ => .idle_bind .retype fun _ => ?_
  exact .done (.bind .freshNode fun node => .pure _)

theorem parameter_tracks :
    Tracks (σ := σ) FloatFits n pre parameter (.category .parameter) := by
  refine .category ((Tracks.keyword (by decide)).bind fun name => .idle_bind .declare fun symbol => ?_)
  refine (Tracks.keyword (by decide)).bind fun _ => ?_
  refine (typeName_tracks fun _ => floatFits_of_ne (by decide)).bind fun ty => ?_
  exact .done (.bind .retype fun _ => .pure _)

theorem functionDef_tracks :
    Tracks (σ := σ) FloatFits n pre functionDef (.category .functionDef) := by
  have hparams : Tracks (σ := σ) FloatFits n (fun _ => True) (optionalList .parameter parameter)
      (.category .parameters) :=
    .category (.optionalList (fun _ => floatFits_of_ne (by decide)) (fun _ => rfl) parameter_tracks)
  refine .category ((Tracks.keyword (by decide)).bind fun token => ?_)
  refine (Tracks.keyword (by decide)).bind fun name => .idle_bind .declare fun symbol => ?_
  refine (Tracks.keyword (by decide)).bind fun _ => .idle_bind .enterScope fun _ => ?_
  refine hparams.bind fun params => (Tracks.keyword (by decide)).bind fun _ => ?_
  refine (Tracks.keyword (by decide)).bind fun _ => ?_
  refine (typeName_tracks fun _ => floatFits_of_ne (by decide)).bind fun result => ?_
  refine .idle_bind .typesOf fun types => .idle_bind .retype fun _ => .remaining fun r _ => ?_
  refine (block_tracks (statement_tracks r) false).bind fun body => ?_
  exact .done (.bind .exitScope fun _ => .bind .freshNode fun node => .pure _)

/-- The first token of a declaration tells whether its numbers are extents. -/
theorem declaration_tracks (token : Token) :
    Tracks (σ := σ) token.DeclFits n (fun next => next = token) declaration
      (.category .declaration) := by
  have hother (hkind : token.kind ≠ .arrayKw) (x : Token) : x.FloatFits ↔ token.DeclFits x :=
    ⟨fun h => ⟨h, fun harray => absurd harray hkind⟩, fun h => h.1⟩
  refine .peek ?_
  rintro _ rfl
  refine .category ?_
  split
  · next hkind =>
    have hfits := hother (hkind ▸ by decide)
    exact ((variableDecl_tracks.bind_idle fun _ => .pure _).alternative rfl hkind).of_fits hfits
  · next hkind =>
    refine ((arrayDecl_tracks.bind_idle fun _ => .pure _).alternative rfl hkind).of_fits fun x => ?_
    exact ⟨fun h => ⟨h.1, fun _ => h.2⟩, fun h => ⟨h.1, h.2 hkind⟩⟩
  · next hkind =>
    have hfits := hother (hkind ▸ by decide)
    exact ((functionDef_tracks.bind_idle fun _ => .pure _).alternative rfl hkind).of_fits hfits
  · next hvar harray hfunc =>
    refine .refuse ?_
    rintro _ rfl
    refine choice_refused (by simp) (Bool.eq_false_iff.2 fun hfirst => ?_)
    have hmem := List.contains_iff_mem.1 hfirst
    simp only [Category.first, Nonterminal.first, List.mem_cons, List.not_mem_nil, or_false] at hmem
    rcases hmem with h | h | h
    · exact hvar h
    · exact harray h
    · exact hfunc h

end

end Parser

end MipsCompiler
