import MipsCompiler.Proofs.Grammar.Reading
import MipsCompiler.Proofs.Parsing.Derivation

set_option autoImplicit false

/-!
# Parsers read sentences

What a parser has read when it ends well is a sentence of the grammar, and its numbers are in range.
The derivations of a parser grow on the left where it loops, and so the repetitions of the grammar
are built from the end here.
-/

namespace MipsCompiler

namespace Token

def FloatFits (token : Token) : Prop :=
  token.kind = .float → (Single.ofText? token.lexeme).isSome

def ExtentFits (token : Token) : Prop :=
  token.kind = .integer → (Numeral.extent? token.lexeme).isSome

def ArrayFits (token : Token) : Prop :=
  token.FloatFits ∧ token.ExtentFits

end Token

def Rule.ebnf : Rule → Ebnf
  | .operand => .category .operand
  | .tier .comparison => .category .expression
  | .tier .sum => .category .sum
  | .tier .product => .category .product
  | .designator => .category .designator
  | .call => .category .call
  | .arguments => .category .arguments
  | .rest => .repeated (.sequence [.token .comma, .category .expression])

def StmtRule.ebnf : StmtRule → Ebnf
  | .statement => .category .statement
  | .statements => .category .statements
  | .block _ => .category .block
  | .otherwise => .optional (.sequence [.token .elseKw, .category .block])

/-- The tokens are a declaration, and its numbers are in range. -/
structure IsDeclaration (tokens : List Token) : Prop where
  sentence : Yields (.category .declaration) (tokens.map Token.kind)
  floats : ∀ x ∈ tokens, x.FloatFits
  extents : Yields (.category .arrayDecl) (tokens.map Token.kind) → ∀ x ∈ tokens, x.ExtentFits

section

variable {σ : Type} [TokenStream σ] {s : σ} {kind : TokenKind}

def DeclSpans (s t : σ) : Prop :=
  ∃ tokens, TokenStream.Between s tokens t ∧ IsDeclaration tokens

theorem DeclSpans.array {t : σ} (h : Spans Token.ArrayFits (.category .arrayDecl) s t) :
    DeclSpans s t := by
  obtain ⟨tokens, hbetween, hyields, hfits⟩ := h
  exact ⟨tokens, hbetween, .category (.choice (by simp) hyields), fun x hx => (hfits x hx).1,
    fun _ x hx => (hfits x hx).2⟩

/-- A declaration that does not begin like that of an array has no extents. -/
theorem DeclSpans.other {t : σ} {c : Category} {parts : List Ebnf}
    (h : Spans Token.FloatFits (.category c) s t) (hrule : c.rule = .sequence (.token kind :: parts))
    (hkind : kind ≠ .arrayKw)
    (hmem : Ebnf.category c ∈ [.category .variableDecl, .category .arrayDecl, .category .functionDef]) :
    DeclSpans s t := by
  have hnext := h.next_kind hrule
  obtain ⟨tokens, hbetween, hyields, hfits⟩ := h
  refine ⟨tokens, hbetween, .category (.choice hmem hyields), hfits, fun harray => ?_⟩
  have hspans : Spans Token.FloatFits (.category .arrayDecl) s t := ⟨tokens, hbetween, harray, hfits⟩
  exact absurd (hnext.symm.trans (hspans.next_kind rfl)) hkind

theorem Takes.float (h : (TokenStream.peek s).kind = kind) (hkind : kind ∉ [.eof, .float]) :
    Takes Token.FloatFits kind s := by
  simp only [List.mem_cons, List.not_mem_nil, or_false, not_or] at hkind
  exact ⟨h, hkind.1, fun hfloat => absurd (h.symm.trans hfloat) hkind.2⟩

theorem Takes.array (h : (TokenStream.peek s).kind = kind)
    (hkind : kind ∉ [.eof, .float, .integer]) : Takes Token.ArrayFits kind s := by
  simp only [List.mem_cons, List.not_mem_nil, or_false, not_or] at hkind
  exact ⟨h, hkind.1, fun hfloat => absurd (h.symm.trans hfloat) hkind.2.1,
    fun hinteger => absurd (h.symm.trans hinteger) hkind.2.2⟩

theorem Spans.literal {value : Literal}
    (hstart : Nonterminal.literal.starts (TokenStream.peek s).kind)
    (hvalue : (TokenStream.peek s).literal? = some value) :
    Spans Token.FloatFits (.category .literal) s (TokenStream.advance s) := by
  have hmem : (TokenStream.peek s).kind ∈ Nonterminal.literalFirst := List.contains_iff_mem.1 hstart
  have heof : ∀ kind ∈ Nonterminal.literalFirst, kind ≠ .eof := by decide
  refine (spans_tokens rfl).2 ⟨hmem, ⟨rfl, heof _ hmem, fun hfloat => ?_⟩, rfl⟩
  rw [Token.literal?, hfloat] at hvalue
  cases htext : Single.ofText? (TokenStream.peek s).lexeme with
  | none => simp [htext] at hvalue
  | some => rfl

theorem Spans.typeName {fits : Token → Prop} (h : Takes fits .identifier s) :
    Spans fits (.category .typeName) s (TokenStream.advance s) :=
  .rule (spans_token.2 ⟨h, rfl⟩)

theorem Spans.operator {tier : Tier} {op : BinaryOp}
    (h : tier.operator? (TokenStream.peek s).kind = some op) :
    Spans Token.FloatFits (.category tier.operators.category) s (TokenStream.advance s) := by
  have hmem : (TokenStream.peek s).kind ∈ tier.operators.first := by
    rw [← tier.operator?_isSome, h]
    rfl
  have hother : ∀ kind ∈ tier.operators.first, kind ∉ [.eof, .float] := by cases tier <;> decide
  exact (spans_tokens tier.operators_rule).2 ⟨hmem, .float rfl (hother _ hmem), rfl⟩

end

namespace ParseState

variable {σ : Type} {s t : ParseState σ} {name : Token} {id : SymbolId}

theorem declare_stream {kind : SymbolKind} (h : s.declare name kind = (id, t)) :
    t.stream = s.stream :=
  (congrArg (fun answer => answer.2.stream) h).symm

theorem resolve_stream (h : s.resolve name = (id, t)) : t.stream = s.stream :=
  (congrArg (fun answer => answer.2.stream) h).symm

end ParseState

namespace Parser

variable {σ : Type} [TokenStream σ] {s t : ParseState σ}

open Token (FloatFits ArrayFits)

theorem Derives.spans {rule : Rule} {phrase : Phrase} (h : Derives rule s phrase t) :
    Spans FloatFits rule.ebnf s.stream t.stream := by
  induction h with
  | literal hstart hvalue => exact .alternative rfl (by simp) (.literal hstart hvalue)
  | negation hk _ ih =>
    refine .alternative rfl (by simp [Rule.ebnf]) (.token (.float hk (by decide)) (.part ih .finish))
  | parenthesized hopen _ hclose ih =>
    exact .alternative rfl (by simp [Rule.ebnf]) (.token (.float hopen (by decide))
      (.part ih (.token (.float hclose (by decide)) .finish)))
  | load _ ih => exact .alternative rfl (by simp [Rule.ebnf]) ih
  | called _ ih => exact .alternative rfl (by simp [Rule.ebnf]) ih
  | @promoted _ _ tier _ _ ih =>
    cases tier with
    | comparison => exact .rule (.part ih (.part .absent .finish))
    | sum => exact .rule (.part ih (.part .none .finish))
    | product => exact .rule (.part ih (.part .none .finish))
  | @binary s t u tier op _ _ _ hop _ ihleft ihright =>
    cases tier with
    | comparison =>
      exact .rule (.part ihleft (.part (.present (.part (.operator hop) (.part ihright .finish)))
        .finish))
    | sum => exact .concat rfl ihleft (.part (.operator hop) (.part ihright .finish))
    | product => exact .concat rfl ihleft (.part (.operator hop) (.part ihright .finish))
  | name hk hresolve =>
    have hstream := ParseState.resolve_stream hresolve
    rw [ParseState.numbered_stream, hstream]
    exact .rule (.token (.float hk (by decide)) (.part .none .finish))
  | subscript _ hopen _ hclose ihbase ihoffset =>
    exact .concat rfl ihbase (.token (.float hopen (by decide))
      (.part ihoffset (.token (.float hclose (by decide)) .finish)))
  | call hcall hname hresolve hopen _ hclose ih =>
    have hstream := ParseState.resolve_stream hresolve
    have hargs := Spans.token (.float hopen (by decide))
      (.part ih (.token (.float hclose (by decide)) .finish))
    rw [hstream] at hargs
    exact .rule (.token (.float hcall (by decide)) (.token (.float hname (by decide)) hargs))
  | noArguments => exact .rule .absent
  | arguments _ _ ih ihs => exact .rule (.present (.part ih (.part ihs .finish)))
  | noMore => exact .none
  | more hcomma _ _ ih ihs => exact .more (.token (.float hcomma (by decide)) (.part ih .finish)) ihs

theorem Annotates.spans {kind : SymbolKind} {id : SymbolId} {parts : List Ebnf} {u : σ}
    (h : Annotates kind s id t) (hrest : Spans FloatFits (.sequence parts) t.stream u) :
    Spans FloatFits
      (.sequence (.token .identifier :: .token .colon :: .category .typeName :: parts)) s.stream u := by
  obtain ⟨hname, hdeclare, hcolon, htype⟩ := h
  have hcolon := Spans.token (.float hcolon (by decide))
    (.part (.typeName (.float htype (by decide))) hrest)
  rw [ParseState.declare_stream hdeclare] at hcolon
  exact .token (.float hname (by decide)) hcolon

theorem DerivesVar.spans {decl : VarDecl} (h : DerivesVar s decl t) :
    Spans FloatFits (.category .variableDecl) s.stream t.stream := by
  obtain ⟨hvar, hannotates, hend⟩ := h
  exact .rule (.token (.float hvar (by decide))
    (hannotates.spans (.token (.float hend (by decide)) .finish)))

theorem DerivesStmt.spans {rule : StmtRule} {phrase : StmtPhrase} (h : DerivesStmt rule s phrase t) :
    Spans FloatFits rule.ebnf s.stream t.stream := by
  induction h with
  | var hdecl => exact .alternative rfl (by simp) hdecl.spans
  | call hcall hend =>
    exact .alternative rfl (by simp) (.rule (c := .callStatement)
      (.part hcall.spans (.token (.float hend (by decide)) .finish)))
  | assign hlet htarget hassign hsource hend =>
    exact .alternative rfl (by simp) (.rule (c := .assignment) (.token (.float hlet (by decide))
      (.part htarget.spans (.token (.float hassign (by decide))
        (.part hsource.spans (.token (.float hend (by decide)) .finish))))))
  | ret hret hvalue hend =>
    exact .alternative rfl (by simp) (.rule (c := .returnStatement) (.token (.float hret (by decide))
      (.part hvalue.spans (.token (.float hend (by decide)) .finish))))
  | branch hif hcondition _ _ ihthen ihelse =>
    exact .alternative rfl (by simp) (.rule (c := .ifStatement) (.token (.float hif (by decide))
      (.part hcondition.spans (.part ihthen (.part ihelse .finish)))))
  | loop hwhile hcondition _ ih =>
    exact .alternative rfl (by simp) (.rule (c := .whileStatement)
      (.token (.float hwhile (by decide)) (.part hcondition.spans (.part ih .finish))))
  | @block s t ownScope stmts hopen _ hclose ih =>
    rw [ParseState.opened_stream] at ih
    rw [ParseState.token, ParseState.closed_stream] at hclose
    rw [ParseState.numbered_stream, ParseState.advance_stream, ParseState.closed_stream]
    exact .rule (.token (.float hopen (by decide))
      (.part ih (.token (.float hclose (by decide)) .finish)))
  | otherwise helse _ ih => exact .present (.token (.float helse (by decide)) (.part ih .finish))
  | missing => exact .absent
  | nil => exact .rule .none
  | cons _ _ ih ihs => exact .rule (.more ih (spans_category.1 ihs))

theorem DerivesExtent.spans {n : Nat} (h : DerivesExtent s n t) :
    Spans ArrayFits (.sequence [.token .openBracket, .token .integer, .token .closeBracket])
      s.stream t.stream := by
  obtain ⟨hopen, hinteger, hvalue, hclose⟩ := h
  have hfits : ArrayFits s.advance.token :=
    ⟨fun hfloat => absurd (hinteger.symm.trans hfloat) (by decide),
      fun _ => Option.isSome_of_eq_some hvalue⟩
  exact .token (.array hopen (by decide)) (.token ⟨hinteger, by decide, hfits⟩
    (.token (.array hclose (by decide)) .finish))

omit [TokenStream σ] in
theorem Items.repeats {α : Type} {R : ParseState σ → α → ParseState σ → Prop} {Q : σ → σ → Prop}
    (hR : ∀ s a t, R s a t → Q s.stream t.stream) {as : List α} (h : Items R s as t) :
    Repeats Q s.stream t.stream := by
  induction h with
  | nil => exact .done
  | cons hitem _ ih => exact .next (hR _ _ _ hitem) ih

theorem DerivesArray.spans {decl : VarDecl} (h : DerivesArray s decl t) :
    Spans ArrayFits (.category .arrayDecl) s.stream t.stream := by
  obtain ⟨harray, hname, hdeclare, hcolon, htype, hne, hextents, hend⟩ := h
  cases hextents with
  | nil => exact absurd rfl hne
  | cons houtermost hinner =>
    have hinner := spans_repeated.2 (hinner.repeats fun _ _ _ h => h.spans)
    have hextents := houtermost.spans.append
      (.part hinner (.token (.array hend (by decide)) .finish))
    have hcolon := Spans.token (.array hcolon (by decide))
      (.part (.typeName (.array htype (by decide))) hextents)
    rw [ParseState.declare_stream hdeclare] at hcolon
    exact .rule (.token (.array harray (by decide)) (.token (.array hname (by decide)) hcolon))

theorem DerivesParam.spans {id : SymbolId} (h : DerivesParam s id t) :
    Spans FloatFits (.sequence [.token .comma, .category .parameter]) s.stream t.stream := by
  obtain ⟨hcomma, hannotates⟩ := h
  exact .token (.float hcomma (by decide)) (.part (.rule (hannotates.spans .finish)) .finish)

theorem DerivesParams.spans {ids : List SymbolId} (h : DerivesParams s ids t) :
    Spans FloatFits (.category .parameters) s.stream t.stream := by
  cases h with
  | none => exact .rule .absent
  | some hfirst hrest =>
    have hrest := spans_repeated.2 (hrest.repeats fun _ _ _ h => h.spans)
    exact .rule (.present (.part (.rule (hfirst.spans .finish)) (.part hrest .finish)))

theorem DerivesFunction.spans {definition : FuncDef} (h : DerivesFunction s definition t) :
    Spans FloatFits (.category .functionDef) s.stream t.stream := by
  obtain ⟨hfunc, hname, hdeclare, hopen, hparams, hclose, hcolon, htype, hbody⟩ := h
  have hresult := Spans.token (.float hcolon (by decide))
    (.part (.typeName (.float htype (by decide))) (.part hbody.spans .finish))
  have hparams := Spans.token (.float hopen (by decide))
    (.part hparams.spans (.token (.float hclose (by decide)) hresult))
  rw [ParseState.declare_stream hdeclare] at hparams
  exact .rule (.token (.float hfunc (by decide)) (.token (.float hname (by decide)) hparams))

theorem DerivesDecl.spans {decl : Decl} (h : DerivesDecl s decl t) :
    DeclSpans s.stream t.stream := by
  cases h with
  | var h => exact .other h.spans rfl (by decide) (by simp)
  | array h => exact .array h.spans
  | func h => exact .other h.spans rfl (by decide) (by simp)

theorem DerivesProgram.spans {tree : Tree} (h : DerivesProgram s tree t) :
    ∃ u, Repeats DeclSpans s.stream u ∧ (TokenStream.peek u).kind = .eof := by
  obtain ⟨hdecls, heof⟩ := h
  exact ⟨_, hdecls.repeats fun _ _ _ h => h.spans, heof⟩

end Parser

end MipsCompiler
