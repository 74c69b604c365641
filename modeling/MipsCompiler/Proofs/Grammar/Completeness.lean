import MipsCompiler.Proofs.Grammar.Soundness

set_option autoImplicit false

/-!
# Parsers read every sentence

A parser that stands before a sentence of its category, followed by a token that cannot extend it,
reads exactly that sentence. What may follow is said by a predicate on the kind of the next token;
for expressions it is a set for each tier, in which the operators of the looser tiers are contained.

Parsers that recurse count down the tokens ahead, so they are complete up to a number of tokens.
-/

namespace MipsCompiler

def Tier.follow : Tier → List TokenKind
  | comparison => [.closeBracket, .closeParen, .comma, .semicolon, .openBrace]
  | sum =>
    Nonterminal.comparisonOp.first ++ [.closeBracket, .closeParen, .comma, .semicolon, .openBrace]
  | product =>
    Nonterminal.sumOp.first ++ Nonterminal.comparisonOp.first ++
      [.closeBracket, .closeParen, .comma, .semicolon, .openBrace]

namespace Parser

open Token (FloatFits ArrayFits)

variable {σ : Type}

/-- Started at one place of the stream, whatever the rest of the state is, the parser ends well at
another. -/
def Reads {α : Type} (p : Parser σ α) (s t : σ) : Prop :=
  ∀ state : ParseState σ, state.stream = s →
    ∃ a later, p state = .ok a later ∧ later.stream = t

namespace Reads

variable {α β : Type} {s t u : σ}

theorem pure (a : α) : Reads (Pure.pure a : Parser σ α) s s := by
  intro state hstate
  exact ⟨a, state, rfl, hstate⟩

theorem bind {p : Parser σ α} {f : α → Parser σ β} (hp : Reads p s t) (hf : ∀ a, Reads (f a) t u) :
    Reads (p >>= f) s u := by
  intro state hstate
  obtain ⟨a, later, hrun, hlater⟩ := hp state hstate
  obtain ⟨b, last, hrest, hlast⟩ := hf a later hlater
  exact ⟨b, last, bind_ok.2 ⟨a, later, hrun, hrest⟩, hlast⟩

theorem unique {p : Parser σ α} (h : Reads p s t) (hother : Reads p s u) : t = u := by
  obtain ⟨_, _, hrun, rfl⟩ := h ⟨s, Scope.initial, [], 0⟩ rfl
  obtain ⟨_, _, hrunOther, rfl⟩ := hother ⟨s, Scope.initial, [], 0⟩ rfl
  rw [hrun] at hrunOther
  cases hrunOther
  rfl

theorem freshNode {pos : Position} : Reads (freshNode pos) s s := by
  intro state hstate
  exact ⟨_, _, rfl, hstate⟩

theorem declare {name : Token} {kind : SymbolKind} : Reads (declare name kind) s s := by
  intro state hstate
  exact ⟨_, _, rfl, hstate⟩

theorem resolve {name : Token} : Reads (resolve name) s s := by
  intro state hstate
  exact ⟨_, _, rfl, hstate⟩

theorem retype {id : SymbolId} {ty : Ty} : Reads (retype id ty) s s := by
  intro state hstate
  exact ⟨_, _, rfl, hstate⟩

theorem typesOf {ids : List SymbolId} : Reads (typesOf ids) s s := by
  intro state hstate
  exact ⟨_, _, rfl, hstate⟩

theorem enterScope : Reads (enterScope (σ := σ)) s s := by
  intro state hstate
  exact ⟨_, _, rfl, hstate⟩

theorem exitScope : Reads (exitScope (σ := σ)) s s := by
  intro state hstate
  exact ⟨_, _, rfl, hstate⟩

variable [TokenStream σ]

theorem peek {f : Token → Parser σ β} (h : Reads (f (TokenStream.peek s)) s t) :
    Reads (Parser.peek >>= f) s t := by
  rintro state rfl
  exact h state rfl

theorem remaining {f : Nat → Parser σ β} (h : Reads (f (TokenStream.remaining s)) s t) :
    Reads (Parser.remaining >>= f) s t := by
  rintro state rfl
  exact h state rfl

theorem advance {f : Token → Parser σ β}
    (h : Reads (f (TokenStream.peek s)) (TokenStream.advance s) t) :
    Reads (Parser.advance >>= f) s t := by
  rintro state rfl
  exact h state.advance rfl

theorem expect {kind : TokenKind} {f : Token → Parser σ β}
    (hkind : (TokenStream.peek s).kind = kind)
    (h : Reads (f (TokenStream.peek s)) (TokenStream.advance s) t) :
    Reads (Parser.expect kind >>= f) s t := by
  rintro state rfl
  obtain ⟨a, later, hrun, hlater⟩ := h state.advance rfl
  exact ⟨a, later, bind_ok.2 ⟨_, _, expect_ok.2 ⟨hkind, rfl, rfl⟩, hrun⟩, hlater⟩

end Reads

variable [TokenStream σ] {α β : Type} {s t : σ}

/-- Where at most `bound` tokens are ahead, the parser reads whatever the relation describes, if such
a token follows it. -/
def Covers (bound : Nat) (p : Parser σ α) (R : σ → σ → Prop) (follow : TokenKind → Prop) : Prop :=
  ∀ s t, TokenStream.remaining s ≤ bound → R s t → follow (TokenStream.peek t).kind → Reads p s t

/-- Each item begins with a token that passes the test. -/
def Begins (R : σ → σ → Prop) (test : TokenKind → Bool) : Prop :=
  ∀ s t, R s t →
    test (TokenStream.peek s).kind = true ∧ TokenStream.remaining t < TokenStream.remaining s

section

variable {R : σ → σ → Prop} {test : TokenKind → Bool} {follow : TokenKind → Prop} {bound n : Nat}

theorem Begins.next_follows (hbegins : Begins R test)
    (hitems : ∀ kind, test kind = true → follow kind) (h : Repeats R s t)
    (hlast : follow (TokenStream.peek t).kind) : follow (TokenStream.peek s).kind := by
  cases h with
  | done => exact hlast
  | next hitem _ => exact hitems _ (hbegins _ _ hitem).1

theorem many_reads {item : Parser σ α} (hbegins : Begins R test)
    (hitems : ∀ kind, test kind = true → follow kind)
    (hitem : Covers bound item R follow) (h : Repeats R s t)
    (hbound : TokenStream.remaining s ≤ bound) (hn : TokenStream.remaining s ≤ n)
    (hend : test (TokenStream.peek t).kind = false) (hlast : follow (TokenStream.peek t).kind) :
    Reads (many test item n) s t := by
  induction n generalizing s with
  | zero =>
    cases h with
    | done => exact .pure []
    | next hfirst _ =>
      have hlt := (hbegins _ _ hfirst).2
      omega
  | succ n ih =>
    refine .peek ?_
    cases h with
    | done =>
      rw [if_neg (Bool.eq_false_iff.1 hend)]
      exact .pure []
    | @next _ u _ hfirst hrest =>
      obtain ⟨htest, hlt⟩ := hbegins _ _ hfirst
      rw [if_pos htest]
      refine .bind (hitem s u hbound hfirst (hbegins.next_follows hitems hrest hlast)) fun x => ?_
      exact .bind (ih hrest (by omega) (by omega)) fun xs => .pure _

theorem repeated_reads {item : Parser σ α} (hbegins : Begins R test)
    (hitems : ∀ kind, test kind = true → follow kind)
    (hitem : Covers bound item R follow) (h : Repeats R s t)
    (hbound : TokenStream.remaining s ≤ bound)
    (hend : test (TokenStream.peek t).kind = false) (hlast : follow (TokenStream.peek t).kind) :
    Reads (repeated test item) s t :=
  .remaining (many_reads hbegins hitems hitem h hbound (Nat.le_refl _) hend hlast)

theorem extend_reads {choose : TokenKind → Option β} {step : α → β → Parser σ α}
    (hbegins : Begins R fun kind => (choose kind).isSome)
    (hitems : ∀ kind, (choose kind).isSome = true → follow kind)
    (hstep : ∀ a b, Covers bound (step a b) R follow) (h : Repeats R s t)
    (hbound : TokenStream.remaining s ≤ bound) (hn : TokenStream.remaining s ≤ n)
    (hend : choose (TokenStream.peek t).kind = none) (hlast : follow (TokenStream.peek t).kind)
    (a : α) : Reads (extend choose step n a) s t := by
  induction n generalizing s a with
  | zero =>
    cases h with
    | done => exact .pure a
    | next hfirst _ =>
      have hlt := (hbegins _ _ hfirst).2
      omega
  | succ n ih =>
    refine .peek ?_
    cases h with
    | done =>
      simp only [hend]
      exact .pure a
    | @next _ u _ hfirst hrest =>
      obtain ⟨hchosen, hlt⟩ := hbegins _ _ hfirst
      obtain ⟨b, hb⟩ := Option.isSome_iff_exists.1 hchosen
      simp only [hb]
      refine .bind (hstep a b s u hbound hfirst (hbegins.next_follows hitems hrest hlast)) fun a' => ?_
      exact ih hrest (by omega) (by omega) a'

end

theorem Begins.of_startsIn {fits : Token → Prop} {e : Ebnf} {kinds : List TokenKind}
    {test : TokenKind → Bool} (hstart : e.StartsIn kinds) (htest : ∀ kind ∈ kinds, test kind = true) :
    Begins (Spans (σ := σ) fits e) test := by
  intro s t h
  obtain ⟨hkind, hlt⟩ := h.starts hstart
  exact ⟨htest _ hkind, hlt⟩

/-- The parser reads the sentences of the category. -/
def Complete (bound : Nat) (p : Parser σ α) (c : Category) (follow : TokenKind → Prop) : Prop :=
  Covers bound p (Spans FloatFits (.category c)) follow

section

variable {bound : Nat} {operand : Parser σ Expr}

theorem binary_reads {tier : Tier} {item : Category} {p : Parser σ Expr}
    {follow : TokenKind → Prop} {u : σ} (hp : Complete bound p item follow)
    (hbound : TokenStream.remaining s ≤ bound)
    (hop : Spans FloatFits (.category tier.operators.category) s t)
    (hright : Spans FloatFits (.category item) t u) (hfollow : follow (TokenStream.peek u).kind)
    (left : Expr) (op : BinaryOp) : Reads (binary p left op) s u := by
  have hle := Nat.le_trans hop.remaining_le hbound
  obtain ⟨_, _, rfl⟩ := (spans_tokens tier.operators_rule).1 hop
  refine .advance (.bind (hp _ u hle hright hfollow) fun right => ?_)
  exact .bind .freshNode fun node => .pure _

theorem chain_complete {tier : Tier} {c item : Category} {p : Parser σ Expr}
    {follow itemFollow : TokenKind → Prop}
    (hrule : c.rule = .sequence [.category item,
      .repeated (.sequence [.category tier.operators.category, .category item])])
    (hp : Complete bound p item itemFollow)
    (hops : ∀ kind ∈ tier.operators.first, itemFollow kind)
    (hfollow : ∀ kind, follow kind → itemFollow kind ∧ tier.operator? kind = none) :
    Complete bound (chain tier p) c follow := by
  intro s t hbound h hlast
  rw [spans_category, hrule] at h
  simp only [spans_cons, spans_nil, spans_repeated, exists_eq_right'] at h
  obtain ⟨u, hfirst, hitems⟩ := h
  obtain ⟨hlast, hend⟩ := hfollow _ hlast
  have hbegins : Begins (Spans (σ := σ) FloatFits
      (.sequence [.category tier.operators.category, .category item]))
      fun kind => (tier.operator? kind).isSome := by
    refine .of_startsIn (.sequence (Nonterminal.startsIn_first tier.operators)) fun kind hkind => ?_
    exact (tier.operator?_isSome kind).2 hkind
  have hops : ∀ kind, (tier.operator? kind).isSome = true → itemFollow kind :=
    fun kind hkind => hops kind ((tier.operator?_isSome kind).1 hkind)
  have hrest := Nat.le_trans hfirst.remaining_le hbound
  refine .bind (hp s u hbound hfirst (hbegins.next_follows hops hitems hlast)) fun first => ?_
  refine .remaining (extend_reads hbegins hops ?_ hitems hrest (Nat.le_refl _) hend hlast first)
  intro a b s t hbound h hfollow
  simp only [spans_cons, spans_nil, exists_eq_right'] at h
  obtain ⟨v, hop, hright⟩ := h
  exact binary_reads hp hbound hop hright hfollow a b

theorem product_complete (hoperand : Complete bound operand .operand (· ≠ .openBracket)) :
    Complete bound (chain .product operand) .product (· ∈ Tier.product.follow) :=
  chain_complete rfl hoperand (by decide) (by decide)

theorem sum_complete (hoperand : Complete bound operand .operand (· ≠ .openBracket)) :
    Complete bound (sum operand) .sum (· ∈ Tier.sum.follow) :=
  chain_complete rfl (product_complete hoperand) (by decide) (by decide)

theorem comparison_complete (hoperand : Complete bound operand .operand (· ≠ .openBracket)) :
    Complete bound (comparison operand) .expression (· ∈ Tier.comparison.follow) := by
  intro s t hbound h hlast
  have hsum := sum_complete hoperand
  have hwider : ∀ kind ∈ Tier.comparison.follow,
      kind ∈ Tier.sum.follow ∧ Tier.comparison.operator? kind = none := by decide
  obtain ⟨hlast, hnone⟩ := hwider _ hlast
  rw [spans_category] at h
  simp only [Category.rule, spans_cons, spans_nil, spans_optional, exists_eq_right'] at h
  obtain ⟨u, hleft, rfl | ⟨v, hop, hright⟩⟩ := h
  · refine .bind (hsum s t hbound hleft hlast) fun left => .peek ?_
    simp only [hnone]
    exact .pure left
  · have hop : Spans FloatFits (.category Tier.comparison.operators.category) u v := hop
    have hkind := ((spans_tokens Tier.comparison.operators_rule).1 hop).1
    have hbetween : (TokenStream.peek u).kind ∈ Tier.sum.follow := List.mem_append_left _ hkind
    obtain ⟨op, hchosen⟩ := Option.isSome_iff_exists.1 ((Tier.operator?_isSome _ _).2 hkind)
    refine .bind (hsum s u hbound hleft hbetween) fun left => .peek ?_
    simp only [hchosen]
    exact binary_reads hsum (Nat.le_trans hleft.remaining_le hbound) hop hright hlast left op

theorem subscript_reads (hoperand : Complete bound operand .operand (· ≠ .openBracket))
    (hbound : TokenStream.remaining s ≤ bound)
    (h : Spans FloatFits
      (.sequence [.token .openBracket, .category .expression, .token .closeBracket]) s t)
    (name : Token) (base : Expr) : Reads (subscript operand name base) s t := by
  simp only [spans_cons, spans_nil, spans_token, and_assoc, exists_and_left, exists_eq_left] at h
  obtain ⟨hopen, u, hoffset, hclose, rfl⟩ := h
  have hlt := hopen.remaining_lt
  refine .advance (.bind (comparison_complete hoperand _ u (by omega) hoffset
    (hclose.follows (by decide))) fun offset => ?_)
  exact .expect hclose.1 (.bind .freshNode fun node => .pure _)

theorem designator_complete (hoperand : Complete bound operand .operand (· ≠ .openBracket)) :
    Complete (bound + 1) (designator operand) .designator (· ≠ .openBracket) := by
  intro s t hbound h hlast
  rw [spans_category] at h
  simp only [Category.rule, spans_cons, spans_nil, spans_token, spans_repeated, and_assoc,
    exists_and_left, exists_eq_left, exists_eq_right'] at h
  obtain ⟨hname, hitems⟩ := h
  have hlt := hname.remaining_lt
  have hbegins : Begins (Spans (σ := σ) FloatFits
      (.sequence [.token .openBracket, .category .expression, .token .closeBracket]))
      fun kind => (if kind = .openBracket then some () else none).isSome :=
    .of_startsIn (.sequence (.token List.mem_cons_self)) (List.forall_mem_singleton.2 rfl)
  refine .expect hname.1 (.bind .resolve fun symbol => .bind .freshNode fun node => ?_)
  refine .remaining (extend_reads hbegins (fun _ _ => trivial) ?_ hitems
    (show _ ≤ bound by omega) (Nat.le_refl _) (if_neg hlast) trivial _)
  intro base _ s t hbound h _
  exact subscript_reads hoperand hbound h _ base

theorem optionalList_reads {nt : Nonterminal} {item : Parser σ α}
    (hitem : Complete bound item nt.category (· ∈ [.comma, .closeParen]))
    (hbound : TokenStream.remaining s ≤ bound)
    (h : Spans FloatFits (.optional (.sequence [.category nt.category,
      .repeated (.sequence [.token .comma, .category nt.category])])) s t)
    (hnt : nt.starts .closeParen = false) (hclose : (TokenStream.peek t).kind = .closeParen) :
    Reads (optionalList nt item) s t := by
  simp only [spans_optional, spans_cons, spans_nil, spans_repeated, exists_eq_right'] at h
  refine .peek ?_
  rcases h with rfl | ⟨u, hfirst, hitems⟩
  · rw [hclose, hnt]
    exact .pure []
  · have hnext := List.contains_iff_mem.2 (hfirst.starts nt.startsIn_first).1
    have hnext : nt.starts (TokenStream.peek s).kind = true := hnext
    have hbegins : Begins (Spans (σ := σ) FloatFits
        (.sequence [.token .comma, .category nt.category])) fun kind => kind = .comma :=
      .of_startsIn (.sequence (.token List.mem_cons_self)) (List.forall_mem_singleton.2 rfl)
    have hcommas : ∀ kind, decide (kind = TokenKind.comma) = true →
        kind ∈ [TokenKind.comma, .closeParen] := by
      intro kind hkind
      rw [of_decide_eq_true hkind]
      exact List.mem_cons_self
    have hlast : (TokenStream.peek t).kind ∈ [TokenKind.comma, .closeParen] := by
      rw [hclose]
      decide
    have hend : decide ((TokenStream.peek t).kind = .comma) = false := by
      rw [hclose]
      rfl
    have hrest := Nat.le_trans hfirst.remaining_le hbound
    rw [if_pos hnext]
    refine .bind (hitem s u hbound hfirst (hbegins.next_follows hcommas hitems hlast)) fun x => ?_
    refine .bind (repeated_reads hbegins hcommas ?_ hitems hrest hend hlast) fun xs => .pure _
    intro s t hbound h hfollow
    simp only [spans_cons, spans_nil, spans_token, and_assoc, exists_and_left, exists_eq_left,
      exists_eq_right'] at h
    obtain ⟨hcomma, h⟩ := h
    have hlt := hcomma.remaining_lt
    exact .advance (hitem _ t (by omega) h hfollow)

theorem callParts_complete (hoperand : Complete bound operand .operand (· ≠ .openBracket)) :
    Complete (bound + 1) (callParts operand) .call fun _ => True := by
  intro s t hbound h _
  rw [spans_category] at h
  simp only [Category.rule, spans_cons, spans_nil, spans_token, and_assoc, exists_and_left,
    exists_eq_left] at h
  obtain ⟨hcall, hname, hopen, u, hargs, hclose, rfl⟩ := h
  have hcallLt := hcall.remaining_lt
  have hnameLt := hname.remaining_lt
  have hopenLt := hopen.remaining_lt
  have harg : Complete bound (comparison operand) .expression (· ∈ [.comma, .closeParen]) := by
    intro s t hbound h hfollow
    have hwider : ∀ kind ∈ [TokenKind.comma, .closeParen], kind ∈ Tier.comparison.follow := by decide
    exact comparison_complete hoperand s t hbound h (hwider _ hfollow)
  refine .expect hcall.1 (.expect hname.1 (.bind .resolve fun callee => .expect hopen.1 ?_))
  refine .bind (optionalList_reads harg (by omega) (spans_category.1 hargs) rfl hclose.1) fun args => ?_
  exact .expect hclose.1 (.bind .freshNode fun node => .pure _)

end

omit [TokenStream σ] in
theorem literalValue_reads {token : Token} (h : token.FloatFits) : Reads (literalValue token) s s := by
  unfold literalValue
  split
  · exact .pure _
  next hfloat =>
    obtain ⟨value, hvalue⟩ := Option.isSome_iff_exists.1 (h hfloat)
    rw [hvalue]
    exact .pure _
  · exact .pure _
  · exact .pure _

/-- Only a bracket could extend an operand, for it may be a designator. -/
theorem operand_complete (n : Nat) :
    Complete n (operand (σ := σ) n) .operand (· ≠ .openBracket) := by
  induction n with
  | zero =>
    -- no token is ahead, and an operand is not empty
    intro s t hbound h _
    have hlt := (h.starts Nonterminal.operand_startsIn).2
    omega
  | succ n ih =>
    intro s t hbound h hlast
    obtain ⟨e, hmem, he⟩ := spans_choice.1 (spans_category.1 h)
    simp only [List.mem_cons, List.not_mem_nil, or_false] at hmem
    refine .peek ?_
    -- the next token tells the alternatives apart; an operand inside comes behind one token at least
    rcases hmem with rfl | rfl | rfl | rfl | rfl
    · simp only [spans_cons, spans_nil, spans_token, and_assoc, exists_and_left, exists_eq_left,
        exists_eq_right'] at he
      obtain ⟨hnot, hinner⟩ := he
      have hlt := hnot.remaining_lt
      rw [hnot.1]
      exact .advance (.bind (ih _ t (by omega) hinner hlast) fun inner =>
        .bind .freshNode fun node => .pure _)
    · simp only [spans_cons, spans_nil, spans_token, and_assoc, exists_and_left, exists_eq_left] at he
      obtain ⟨hopen, u, hinner, hclose, rfl⟩ := he
      have hlt := hopen.remaining_lt
      rw [hopen.1]
      refine .advance (.bind (comparison_complete ih _ u (by omega) hinner ?_) fun inner =>
        .expect hclose.1 (.pure _))
      exact hclose.follows (by decide)
    · rw [he.next_kind rfl]
      exact .peek (.bind (designator_complete ih s t hbound he hlast) fun place =>
        .bind .freshNode fun node => .pure _)
    · rw [he.next_kind rfl]
      exact .bind (callParts_complete ih s t hbound he trivial) fun _ => .pure _
    · have hrule : Category.literal.rule = .choice (Nonterminal.literalFirst.map .token) := rfl
      obtain ⟨hkind, ⟨_, _, hfits⟩, rfl⟩ := (spans_tokens hrule).1 he
      have hread : Reads literal s (TokenStream.advance s) :=
        .advance (.bind (literalValue_reads hfits) fun value => .bind .freshNode fun node => .pure _)
      generalize (TokenStream.peek s).kind = kind at hkind
      simp only [Nonterminal.literalFirst, List.mem_cons, List.not_mem_nil, or_false] at hkind
      rcases hkind with rfl | rfl | rfl | rfl <;> exact hread

theorem expression_reads (h : Spans FloatFits (.category .expression) s t)
    (hfollow : (TokenStream.peek t).kind ∈ Tier.comparison.follow) : Reads expression s t :=
  .remaining (comparison_complete (operand_complete _) s t (Nat.le_refl _) h hfollow)

theorem typeName_reads {fits : Token → Prop} (h : Spans fits (.category .typeName) s t) :
    Reads typeName s t := by
  obtain ⟨hname, rfl⟩ := spans_token.1 (spans_category.1 h)
  exact .expect hname.1 (.pure _)

theorem variableDecl_reads (h : Spans FloatFits (.category .variableDecl) s t) :
    Reads variableDecl s t := by
  rw [spans_category] at h
  simp only [Category.rule, spans_cons, spans_nil, spans_token, and_assoc, exists_and_left,
    exists_eq_left] at h
  obtain ⟨hvar, hname, hcolon, u, htype, hend, rfl⟩ := h
  refine .expect hvar.1 (.expect hname.1 (.bind .declare fun symbol => .expect hcolon.1 ?_))
  refine .bind (typeName_reads htype) fun ty => .bind .retype fun _ => ?_
  exact .expect hend.1 (.bind .freshNode fun node => .pure _)

theorem callStatement_reads (h : Spans FloatFits (.category .callStatement) s t) :
    Reads callStatement s t := by
  rw [spans_category] at h
  simp only [Category.rule, spans_cons, spans_nil, spans_token, and_assoc, exists_and_left,
    exists_eq_left] at h
  obtain ⟨u, hcall, hend, rfl⟩ := h
  have hread := callParts_complete (operand_complete _) s u (Nat.le_succ _) hcall trivial
  exact .remaining (.bind hread fun _ => .expect hend.1 (.pure _))

theorem assignment_reads (h : Spans FloatFits (.category .assignment) s t) :
    Reads assignment s t := by
  rw [spans_category] at h
  simp only [Category.rule, spans_cons, spans_nil, spans_token, and_assoc, exists_and_left,
    exists_eq_left] at h
  obtain ⟨hlet, u, htarget, hassign, v, hsource, hend, rfl⟩ := h
  have htarget := designator_complete (operand_complete _) _ u (Nat.le_succ _) htarget
    (hassign.follows (P := (· ≠ .openBracket)) (by decide))
  have hsource := expression_reads hsource (hend.follows (by decide))
  refine .expect hlet.1 (.remaining (.bind htarget fun target => .expect hassign.1 ?_))
  exact .bind hsource fun source => .expect hend.1 (.bind .freshNode fun node => .pure _)

theorem returnStatement_reads (h : Spans FloatFits (.category .returnStatement) s t) :
    Reads returnStatement s t := by
  rw [spans_category] at h
  simp only [Category.rule, spans_cons, spans_nil, spans_token, and_assoc, exists_and_left,
    exists_eq_left] at h
  obtain ⟨hret, u, hvalue, hend, rfl⟩ := h
  have hvalue := expression_reads hvalue (hend.follows (by decide))
  exact .expect hret.1 (.bind hvalue fun value => .expect hend.1 (.bind .freshNode fun node => .pure _))

section

variable {bound : Nat} {statement : Parser σ Stmt}

theorem block_complete (hstatement : Complete bound statement .statement (· ≠ .elseKw))
    (ownScope : Bool) : Complete (bound + 1) (block ownScope statement) .block fun _ => True := by
  intro s t hbound h _
  rw [spans_category] at h
  simp only [Category.rule, spans_cons, spans_nil, spans_token, and_assoc, exists_and_left,
    exists_eq_left] at h
  obtain ⟨hopen, u, hstmts, hclose, rfl⟩ := h
  have hlt := hopen.remaining_lt
  have hbegins : Begins (Spans (σ := σ) FloatFits (.category .statement))
      Nonterminal.statement.starts :=
    .of_startsIn Nonterminal.statement_startsIn fun kind hkind => List.contains_iff_mem.2 hkind
  have hitems : ∀ kind, Nonterminal.statement.starts kind = true → kind ≠ .elseKw := by
    rintro kind hkind rfl
    exact absurd hkind (by decide)
  have hstmts : Reads (repeated Nonterminal.statement.starts statement) _ u :=
    repeated_reads hbegins hitems hstatement (spans_repeated.1 (spans_category.1 hstmts)) (by omega)
      (hclose.follows (P := (Nonterminal.statement.starts · = false)) rfl)
      (hclose.follows (P := (· ≠ .elseKw)) (by decide))
  refine .expect hopen.1 ?_
  cases ownScope with
  | false =>
    exact .bind hstmts fun stmts => .expect hclose.1 (.bind .freshNode fun node => .pure _)
  | true =>
    exact .bind .enterScope fun _ => .bind hstmts fun stmts => .bind .exitScope fun _ =>
      .expect hclose.1 (.bind .freshNode fun node => .pure _)

theorem elseBlock_reads (hstatement : Complete bound statement .statement (· ≠ .elseKw))
    (hbound : TokenStream.remaining s ≤ bound + 1)
    (h : Spans FloatFits (.optional (.sequence [.token .elseKw, .category .block])) s t)
    (hlast : (TokenStream.peek t).kind ≠ .elseKw) : Reads (elseBlock statement) s t := by
  simp only [spans_optional, spans_cons, spans_nil, spans_token, and_assoc, exists_and_left,
    exists_eq_left, exists_eq_right'] at h
  refine .peek ?_
  rcases h with rfl | ⟨helse, hblock⟩
  · rw [if_neg hlast]
    exact .bind .freshNode fun node => .pure _
  · have hlt := helse.remaining_lt
    rw [if_pos helse.1]
    exact .advance (block_complete hstatement true _ t (by omega) hblock trivial)

theorem ifStatement_complete (hstatement : Complete bound statement .statement (· ≠ .elseKw)) :
    Complete (bound + 1) (ifStatement statement) .ifStatement (· ≠ .elseKw) := by
  intro s t hbound h hlast
  rw [spans_category] at h
  simp only [Category.rule, spans_cons, spans_nil, spans_token, and_assoc, exists_and_left,
    exists_eq_left, exists_eq_right'] at h
  obtain ⟨hif, u, hcondition, v, hthen, helse⟩ := h
  have hlt := hif.remaining_lt
  have hle := hcondition.remaining_le
  have hle' := hthen.remaining_le
  have hbrace : (TokenStream.peek u).kind ∈ Tier.comparison.follow := by
    rw [hthen.next_kind rfl]
    decide
  refine .expect hif.1 (.bind (expression_reads hcondition hbrace) fun condition => ?_)
  refine .bind (block_complete hstatement true u v (by omega) hthen trivial) fun taken => ?_
  refine .bind (elseBlock_reads hstatement (by omega) helse hlast) fun otherwise => ?_
  exact .bind .freshNode fun node => .pure _

theorem whileStatement_complete (hstatement : Complete bound statement .statement (· ≠ .elseKw)) :
    Complete (bound + 1) (whileStatement statement) .whileStatement fun _ => True := by
  intro s t hbound h _
  rw [spans_category] at h
  simp only [Category.rule, spans_cons, spans_nil, spans_token, and_assoc, exists_and_left,
    exists_eq_left, exists_eq_right'] at h
  obtain ⟨hwhile, u, hcondition, hbody⟩ := h
  have hlt := hwhile.remaining_lt
  have hle := hcondition.remaining_le
  have hbrace : (TokenStream.peek u).kind ∈ Tier.comparison.follow := by
    rw [hbody.next_kind rfl]
    decide
  refine .expect hwhile.1 (.bind (expression_reads hcondition hbrace) fun condition => ?_)
  refine .bind (block_complete hstatement true u t (by omega) hbody trivial) fun body => ?_
  exact .bind .freshNode fun node => .pure _

end

/-- Only `else` could extend a statement, for it may be a branch. -/
theorem statement_complete (n : Nat) :
    Complete n (statement (σ := σ) n) .statement (· ≠ .elseKw) := by
  induction n with
  | zero =>
    intro s t hbound h _
    have hlt := (h.starts Nonterminal.statement_startsIn).2
    omega
  | succ n ih =>
    intro s t hbound h hlast
    obtain ⟨e, hmem, he⟩ := spans_choice.1 (spans_category.1 h)
    simp only [List.mem_cons, List.not_mem_nil, or_false] at hmem
    refine .peek ?_
    rcases hmem with rfl | rfl | rfl | rfl | rfl | rfl
    · rw [he.next_kind rfl]
      exact .bind (variableDecl_reads he) fun decl => .pure _
    · obtain ⟨u, hcall, _⟩ := spans_cons.1 (spans_category.1 he)
      rw [hcall.next_kind rfl]
      exact callStatement_reads he
    · rw [he.next_kind rfl]
      exact assignment_reads he
    · rw [he.next_kind rfl]
      exact ifStatement_complete ih s t hbound he hlast
    · rw [he.next_kind rfl]
      exact whileStatement_complete ih s t hbound he trivial
    · rw [he.next_kind rfl]
      exact returnStatement_reads he

theorem extent_reads
    (h : Spans ArrayFits (.sequence [.token .openBracket, .token .integer, .token .closeBracket]) s t) :
    Reads extent s t := by
  simp only [spans_cons, spans_nil, spans_token, and_assoc, exists_and_left, exists_eq_left] at h
  obtain ⟨hopen, hinteger, hclose, rfl⟩ := h
  obtain ⟨value, hvalue⟩ := Option.isSome_iff_exists.1 (hinteger.2.2.2 hinteger.1)
  refine .expect hopen.1 (.expect hinteger.1 ?_)
  simp only [hvalue]
  exact .expect hclose.1 (.pure _)

theorem arrayDecl_reads (h : Spans ArrayFits (.category .arrayDecl) s t) : Reads arrayDecl s t := by
  rw [spans_category] at h
  simp only [Category.rule, spans_cons, spans_nil, spans_token, spans_repeated, and_assoc,
    exists_and_left, exists_eq_left] at h
  obtain ⟨harray, hname, hcolon, u, htype, hopen, hinteger, hclose, v, hinner, hend, rfl⟩ := h
  have houtermost := extent_reads (.token hopen (.token hinteger (.token hclose .finish)))
  have hbegins : Begins (Spans (σ := σ) ArrayFits
      (.sequence [.token .openBracket, .token .integer, .token .closeBracket]))
      fun kind => kind = .openBracket :=
    .of_startsIn (.sequence (.token List.mem_cons_self)) (List.forall_mem_singleton.2 rfl)
  have hinner : Reads (repeated (fun kind => kind = .openBracket) extent) _ v :=
    repeated_reads hbegins (fun _ _ => trivial) (fun _ _ _ h _ => extent_reads h) hinner
      (Nat.le_refl _) (hend.follows (P := fun kind => decide (kind = .openBracket) = false) rfl) trivial
  refine .expect harray.1 (.expect hname.1 (.bind .declare fun symbol => .expect hcolon.1 ?_))
  refine .bind (typeName_reads htype) fun base => .bind houtermost fun outermost => ?_
  refine .bind hinner fun inner => .expect hend.1 (.bind .retype fun _ => ?_)
  exact .bind .freshNode fun node => .pure _

theorem parameter_reads (h : Spans FloatFits (.category .parameter) s t) : Reads parameter s t := by
  rw [spans_category] at h
  simp only [Category.rule, spans_cons, spans_nil, spans_token, and_assoc, exists_and_left,
    exists_eq_left, exists_eq_right'] at h
  obtain ⟨hname, hcolon, htype⟩ := h
  refine .expect hname.1 (.bind .declare fun symbol => .expect hcolon.1 ?_)
  exact .bind (typeName_reads htype) fun ty => .bind .retype fun _ => .pure _

theorem functionDef_reads (h : Spans FloatFits (.category .functionDef) s t) :
    Reads functionDef s t := by
  rw [spans_category] at h
  simp only [Category.rule, spans_cons, spans_nil, spans_token, and_assoc, exists_and_left,
    exists_eq_left, exists_eq_right'] at h
  obtain ⟨hfunc, hname, hopen, u, hparams, hclose, hcolon, v, htype, hbody⟩ := h
  have hparams : Reads (optionalList .parameter parameter) _ u :=
    optionalList_reads (fun _ _ _ h _ => parameter_reads h) (Nat.le_refl _)
      (spans_category.1 hparams) rfl hclose.1
  refine .expect hfunc.1 (.expect hname.1 (.bind .declare fun symbol => .expect hopen.1 ?_))
  refine .bind .enterScope fun _ => .bind hparams fun params => .expect hclose.1 ?_
  refine .expect hcolon.1 (.bind (typeName_reads htype) fun result => .bind .typesOf fun types => ?_)
  refine .bind .retype fun _ => .remaining ?_
  refine .bind (block_complete (statement_complete _) false v t (Nat.le_succ _) hbody trivial) ?_
  exact fun body => .bind .exitScope fun _ => .bind .freshNode fun node => .pure _

theorem declaration_reads (h : DeclSpans s t) : Reads declaration s t := by
  obtain ⟨tokens, hbetween, hdecl⟩ := h
  obtain ⟨e, hmem, he⟩ := yields_choice.1 (yields_category.1 hdecl.sentence)
  simp only [List.mem_cons, List.not_mem_nil, or_false] at hmem
  refine .peek ?_
  rcases hmem with rfl | rfl | rfl
  · have h : Spans FloatFits (.category .variableDecl) s t := ⟨tokens, hbetween, he, hdecl.floats⟩
    rw [h.next_kind rfl]
    exact .bind (variableDecl_reads h) fun decl => .pure _
  · have h : Spans ArrayFits (.category .arrayDecl) s t :=
      ⟨tokens, hbetween, he, fun x hx => ⟨hdecl.floats x hx, hdecl.extents he x hx⟩⟩
    rw [h.next_kind rfl]
    exact .bind (arrayDecl_reads h) fun decl => .pure _
  · have h : Spans FloatFits (.category .functionDef) s t := ⟨tokens, hbetween, he, hdecl.floats⟩
    rw [h.next_kind rfl]
    exact .bind (functionDef_reads h) fun definition => .pure _

theorem program_reads (h : Repeats DeclSpans s t) (hend : (TokenStream.peek t).kind = .eof) :
    Reads program s (TokenStream.advance t) := by
  have hbegins : Begins (DeclSpans (σ := σ)) Nonterminal.declaration.starts := by
    rintro s t ⟨tokens, hbetween, hdecl⟩
    have hspans : Spans FloatFits (.category .declaration) s t :=
      ⟨tokens, hbetween, hdecl.sentence, hdecl.floats⟩
    obtain ⟨hkind, hlt⟩ := hspans.starts Nonterminal.declaration_startsIn
    exact ⟨List.contains_iff_mem.2 hkind, hlt⟩
  have hstop : Nonterminal.declaration.starts (TokenStream.peek t).kind = false := by
    rw [hend]
    rfl
  have hdecls : Reads (repeated Nonterminal.declaration.starts declaration) s t :=
    repeated_reads hbegins (fun _ _ => trivial) (fun _ _ _ h _ => declaration_reads h) h
      (Nat.le_refl _) hstop trivial
  exact .peek (.bind hdecls fun decls => .expect hend (.bind .freshNode fun node => .pure _))

end Parser

end MipsCompiler
