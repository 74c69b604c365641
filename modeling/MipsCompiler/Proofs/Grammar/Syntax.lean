import MipsCompiler.Grammar
import MipsCompiler.Operator

set_option autoImplicit false

/-!
# The grammar

The grammar of the language as data: each category has a rule in extended Backus–Naur form, and
`Yields` says which sequences of token kinds a rule derives. It knows nothing of parsers, of
lookahead or of the order in which alternatives are tried.

The sets that a parser chooses by are justified here: each sentence of a category begins with a
token of its set.
-/

namespace MipsCompiler

inductive Category where
  | literal
  | designator
  | typeName
  | comparisonOp
  | sumOp
  | productOp
  | expression
  | sum
  | product
  | operand
  | call
  | arguments
  | parameter
  | parameters
  | variableDecl
  | arrayDecl
  | functionDef
  | declaration
  | declarations
  | assignment
  | callStatement
  | ifStatement
  | whileStatement
  | returnStatement
  | statement
  | statements
  | block

inductive Ebnf where
  | token (kind : TokenKind)
  | category (c : Category)
  | sequence (parts : List Ebnf)
  | choice (alternatives : List Ebnf)
  | optional (e : Ebnf)
  | repeated (e : Ebnf)

namespace Category

open Ebnf in
def rule : Category → Ebnf
  | .literal => choice [token .integer, token .float, token .trueKw, token .falseKw]
  | .designator =>
    sequence [token .identifier,
      repeated (sequence [token .openBracket, category .expression, token .closeBracket])]
  | .typeName => token .identifier
  | .comparisonOp =>
    choice [token .greaterEqual, token .lesserEqual, token .notEqual, token .equal,
      token .greaterThan, token .lessThan]
  | .sumOp => choice [token .add, token .sub, token .orKw]
  | .productOp => choice [token .mul, token .div, token .andKw]
  | .expression =>
    sequence [category .sum, optional (sequence [category .comparisonOp, category .sum])]
  | .sum =>
    sequence [category .product, repeated (sequence [category .sumOp, category .product])]
  | .product =>
    sequence [category .operand, repeated (sequence [category .productOp, category .operand])]
  | .operand =>
    choice [sequence [token .notKw, category .operand],
      sequence [token .openParen, category .expression, token .closeParen],
      category .designator, category .call, category .literal]
  | .call =>
    sequence [token .call, token .identifier, token .openParen, category .arguments,
      token .closeParen]
  | .arguments =>
    optional (sequence [category .expression,
      repeated (sequence [token .comma, category .expression])])
  | .parameter => sequence [token .identifier, token .colon, category .typeName]
  | .parameters =>
    optional (sequence [category .parameter,
      repeated (sequence [token .comma, category .parameter])])
  | .variableDecl =>
    sequence [token .varKw, token .identifier, token .colon, category .typeName, token .semicolon]
  | .arrayDecl =>
    sequence [token .arrayKw, token .identifier, token .colon, category .typeName,
      token .openBracket, token .integer, token .closeBracket,
      repeated (sequence [token .openBracket, token .integer, token .closeBracket]),
      token .semicolon]
  | .functionDef =>
    sequence [token .funcKw, token .identifier, token .openParen, category .parameters,
      token .closeParen, token .colon, category .typeName, category .block]
  | .declaration => choice [category .variableDecl, category .arrayDecl, category .functionDef]
  | .declarations => repeated (category .declaration)
  | .assignment =>
    sequence [token .letKw, category .designator, token .assign, category .expression,
      token .semicolon]
  | .callStatement => sequence [category .call, token .semicolon]
  | .ifStatement =>
    sequence [token .ifKw, category .expression, category .block,
      optional (sequence [token .elseKw, category .block])]
  | .whileStatement => sequence [token .whileKw, category .expression, category .block]
  | .returnStatement => sequence [token .returnKw, category .expression, token .semicolon]
  | .statement =>
    choice [category .variableDecl, category .callStatement, category .assignment,
      category .ifStatement, category .whileStatement, category .returnStatement]
  | .statements => repeated (category .statement)
  | .block => sequence [token .openBrace, category .statements, token .closeBrace]

end Category

/-- The sequences of token kinds that an expression of the grammar derives. -/
inductive Yields : Ebnf → List TokenKind → Prop
  | token {kind : TokenKind} : Yields (.token kind) [kind]
  | category {c : Category} {kinds : List TokenKind} :
      Yields c.rule kinds → Yields (.category c) kinds
  | nil : Yields (.sequence []) []
  | cons {part : Ebnf} {parts : List Ebnf} {kinds rest : List TokenKind} :
      Yields part kinds → Yields (.sequence parts) rest →
      Yields (.sequence (part :: parts)) (kinds ++ rest)
  | choice {e : Ebnf} {alternatives : List Ebnf} {kinds : List TokenKind} :
      e ∈ alternatives → Yields e kinds → Yields (.choice alternatives) kinds
  | absent {e : Ebnf} : Yields (.optional e) []
  | present {e : Ebnf} {kinds : List TokenKind} : Yields e kinds → Yields (.optional e) kinds
  | none {e : Ebnf} : Yields (.repeated e) []
  | more {e : Ebnf} {kinds rest : List TokenKind} :
      Yields e kinds → Yields (.repeated e) rest → Yields (.repeated e) (kinds ++ rest)

theorem yields_token {kind : TokenKind} {kinds : List TokenKind} :
    Yields (.token kind) kinds ↔ kinds = [kind] := by
  constructor
  · intro h
    cases h
    rfl
  · rintro rfl
    exact .token

theorem yields_category {c : Category} {kinds : List TokenKind} :
    Yields (.category c) kinds ↔ Yields c.rule kinds := by
  constructor
  · intro h
    cases h with
    | category h => exact h
  · exact .category

theorem yields_nil {kinds : List TokenKind} : Yields (.sequence []) kinds ↔ kinds = [] := by
  constructor
  · intro h
    cases h
    rfl
  · rintro rfl
    exact .nil

theorem yields_cons {part : Ebnf} {parts : List Ebnf} {kinds : List TokenKind} :
    Yields (.sequence (part :: parts)) kinds ↔
      ∃ front rest, kinds = front ++ rest ∧ Yields part front ∧ Yields (.sequence parts) rest := by
  constructor
  · intro h
    cases h with
    | cons hpart hparts => exact ⟨_, _, rfl, hpart, hparts⟩
  · rintro ⟨front, rest, rfl, hpart, hparts⟩
    exact .cons hpart hparts

theorem yields_choice {alternatives : List Ebnf} {kinds : List TokenKind} :
    Yields (.choice alternatives) kinds ↔ ∃ e ∈ alternatives, Yields e kinds := by
  constructor
  · intro h
    cases h with
    | choice hmem h => exact ⟨_, hmem, h⟩
  · rintro ⟨e, hmem, h⟩
    exact .choice hmem h

theorem yields_optional {e : Ebnf} {kinds : List TokenKind} :
    Yields (.optional e) kinds ↔ kinds = [] ∨ Yields e kinds := by
  constructor
  · intro h
    cases h with
    | absent => exact .inl rfl
    | present h => exact .inr h
  · rintro (rfl | h)
    · exact .absent
    · exact .present h

theorem yields_repeated {e : Ebnf} {kinds : List TokenKind} :
    Yields (.repeated e) kinds ↔
      ∃ pieces : List (List TokenKind), kinds = pieces.flatten ∧ ∀ piece ∈ pieces, Yields e piece := by
  constructor
  · intro h
    generalize hrule : Ebnf.repeated e = rule at h
    induction h with
    | none => exact ⟨[], rfl, fun _ h => absurd h List.not_mem_nil⟩
    | more hpiece _ _ ih =>
      cases hrule
      obtain ⟨pieces, rfl, hpieces⟩ := ih rfl
      exact ⟨_ :: pieces, rfl, List.forall_mem_cons.2 ⟨hpiece, hpieces⟩⟩
    | _ => nomatch hrule
  · rintro ⟨pieces, rfl, hpieces⟩
    induction pieces with
    | nil => exact .none
    | cons piece pieces ih =>
      obtain ⟨hpiece, hpieces⟩ := List.forall_mem_cons.1 hpieces
      exact .more hpiece (ih hpieces)

/-- Every sentence begins with a token of one of the kinds. -/
def Ebnf.StartsIn (e : Ebnf) (kinds : List TokenKind) : Prop :=
  ∀ sentence, Yields e sentence → ∃ kind rest, sentence = kind :: rest ∧ kind ∈ kinds

namespace Ebnf.StartsIn

variable {e : Ebnf} {kinds : List TokenKind}

theorem token {kind : TokenKind} (h : kind ∈ kinds) : (Ebnf.token kind).StartsIn kinds := by
  intro sentence hsentence
  exact ⟨kind, [], yields_token.1 hsentence, h⟩

theorem category {c : Category} (h : c.rule.StartsIn kinds) :
    (Ebnf.category c).StartsIn kinds := by
  intro sentence hsentence
  exact h sentence (yields_category.1 hsentence)

theorem sequence {parts : List Ebnf} (h : e.StartsIn kinds) :
    (Ebnf.sequence (e :: parts)).StartsIn kinds := by
  intro sentence hsentence
  obtain ⟨front, rest, rfl, hfront, _⟩ := yields_cons.1 hsentence
  obtain ⟨kind, others, rfl, hkind⟩ := h front hfront
  exact ⟨kind, others ++ rest, rfl, hkind⟩

theorem choice {alternatives : List Ebnf} (h : ∀ e ∈ alternatives, e.StartsIn kinds) :
    (Ebnf.choice alternatives).StartsIn kinds := by
  intro sentence hsentence
  obtain ⟨e, hmem, he⟩ := yields_choice.1 hsentence
  exact h e hmem sentence he

theorem tokens {c : Category} (h : c.rule = .choice (kinds.map .token)) :
    (Ebnf.category c).StartsIn kinds := by
  apply category
  rw [h]
  apply choice
  intro e he
  obtain ⟨kind, hkind, rfl⟩ := List.mem_map.1 he
  exact token hkind

theorem mono {others : List TokenKind} (h : e.StartsIn kinds) (hsubset : kinds ⊆ others) :
    e.StartsIn others := by
  intro sentence hsentence
  obtain ⟨kind, rest, rfl, hkind⟩ := h sentence hsentence
  exact ⟨kind, rest, rfl, hsubset hkind⟩

end Ebnf.StartsIn

namespace Nonterminal

def category : Nonterminal → Category
  | literal => .literal
  | comparisonOp => .comparisonOp
  | sumOp => .sumOp
  | productOp => .productOp
  | expression => .expression
  | operand => .operand
  | parameter => .parameter
  | declaration => .declaration
  | statement => .statement

open Ebnf (StartsIn)

theorem operand_startsIn : (Ebnf.category .operand).StartsIn operandFirst := by
  have hliteral : (Ebnf.category .literal).StartsIn operandFirst :=
    (StartsIn.tokens rfl).mono (List.subset_append_right _ literalFirst)
  apply StartsIn.category
  apply StartsIn.choice
  simp only [List.forall_mem_cons]
  exact ⟨.sequence (.token (by decide)), .sequence (.token (by decide)),
    .category (.sequence (.token (by decide))), .category (.sequence (.token (by decide))),
    hliteral, fun _ h => absurd h List.not_mem_nil⟩

theorem declaration_startsIn : (Ebnf.category .declaration).StartsIn declaration.first := by
  apply StartsIn.category
  apply StartsIn.choice
  simp only [List.forall_mem_cons]
  exact ⟨.category (.sequence (.token (by decide))), .category (.sequence (.token (by decide))),
    .category (.sequence (.token (by decide))), fun _ h => absurd h List.not_mem_nil⟩

theorem statement_startsIn : (Ebnf.category .statement).StartsIn statement.first := by
  have hcall : (Ebnf.category .callStatement).StartsIn statement.first :=
    .category (.sequence (.category (.sequence (.token (by decide)))))
  apply StartsIn.category
  apply StartsIn.choice
  simp only [List.forall_mem_cons]
  exact ⟨.category (.sequence (.token (by decide))), hcall,
    .category (.sequence (.token (by decide))), .category (.sequence (.token (by decide))),
    .category (.sequence (.token (by decide))), .category (.sequence (.token (by decide))),
    fun _ h => absurd h List.not_mem_nil⟩

/-- The sets that a parser chooses by hold what a sentence can begin with. -/
theorem startsIn_first (nt : Nonterminal) : (Ebnf.category nt.category).StartsIn nt.first := by
  cases nt with
  | literal => exact .tokens rfl
  | comparisonOp => exact .tokens rfl
  | sumOp => exact .tokens rfl
  | productOp => exact .tokens rfl
  | expression =>
    have hproduct : (Ebnf.category .product).StartsIn operandFirst :=
      .category (.sequence operand_startsIn)
    have hsum : (Ebnf.category .sum).StartsIn operandFirst := .category (.sequence hproduct)
    exact .category (.sequence hsum)
  | operand => exact operand_startsIn
  | parameter => exact .category (.sequence (.token (by decide)))
  | declaration => exact declaration_startsIn
  | statement => exact statement_startsIn

end Nonterminal

namespace Tier

def operators : Tier → Nonterminal
  | comparison => .comparisonOp
  | sum => .sumOp
  | product => .productOp

theorem operators_rule (tier : Tier) :
    tier.operators.category.rule = .choice (tier.operators.first.map .token) := by
  cases tier <;> rfl

theorem operator?_isSome (tier : Tier) (kind : TokenKind) :
    (tier.operator? kind).isSome ↔ kind ∈ tier.operators.first := by
  cases tier <;> cases kind <;> decide

end Tier

namespace Ebnf

mutual

/-- Only such categories and tokens occur in it. -/
def uses (categories : Category → Bool) (kinds : TokenKind → Bool) : Ebnf → Bool
  | token kind => kinds kind
  | category c => categories c
  | sequence parts => allUse categories kinds parts
  | choice alternatives => allUse categories kinds alternatives
  | optional e => e.uses categories kinds
  | repeated e => e.uses categories kinds

def allUse (categories : Category → Bool) (kinds : TokenKind → Bool) : List Ebnf → Bool
  | [] => true
  | e :: es => e.uses categories kinds && allUse categories kinds es

end

theorem allUse_iff {categories : Category → Bool} {kinds : TokenKind → Bool} {es : List Ebnf} :
    allUse categories kinds es ↔ ∀ e ∈ es, e.uses categories kinds := by
  induction es with
  | nil => simp [allUse]
  | cons e es ih => simp [allUse, ih]

end Ebnf

theorem Yields.uses {categories : Category → Bool} {kinds : TokenKind → Bool} {e : Ebnf}
    {sentence : List TokenKind} (hrules : ∀ c, categories c → c.rule.uses categories kinds)
    (h : Yields e sentence) (he : e.uses categories kinds) : ∀ kind ∈ sentence, kinds kind := by
  induction h with
  | token => exact List.forall_mem_singleton.2 he
  | category _ ih => exact ih (hrules _ he)
  | nil | absent | none => exact fun _ h => absurd h List.not_mem_nil
  | cons _ _ ihpart ihparts =>
    obtain ⟨hpart, hparts⟩ := List.forall_mem_cons.1 (Ebnf.allUse_iff.1 he)
    exact List.forall_mem_append.2 ⟨ihpart hpart, ihparts (Ebnf.allUse_iff.2 hparts)⟩
  | choice hmem _ ih => exact ih (Ebnf.allUse_iff.1 he _ hmem)
  | present _ ih => exact ih he
  | more _ _ ihfirst ihrest => exact List.forall_mem_append.2 ⟨ihfirst he, ihrest he⟩

end MipsCompiler
