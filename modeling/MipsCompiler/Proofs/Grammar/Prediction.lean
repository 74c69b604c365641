import MipsCompiler.Proofs.Grammar.Syntax

set_option autoImplicit false

/-!
# Reading by one token of lookahead

`Predicts` describes how far a sentence is read when every choice is made by the next token alone:
which kinds are passed, and whether reading is then done, refused at the next token, or halted behind
the last one. It does not say that the choices are good ones. What is passed can always be continued
to a sentence, and what is passed and seen next settles the outcome.
-/

namespace MipsCompiler

/-- The kinds by which a category is chosen. -/
def Category.first : Category → List TokenKind
  | .literal => Nonterminal.literalFirst
  | .designator => [.identifier]
  | .typeName => [.identifier]
  | .comparisonOp => Nonterminal.comparisonOp.first
  | .sumOp => Nonterminal.sumOp.first
  | .productOp => Nonterminal.productOp.first
  | .expression => Nonterminal.operandFirst
  | .sum => Nonterminal.operandFirst
  | .product => Nonterminal.operandFirst
  | .operand => Nonterminal.operandFirst
  | .call => [.call]
  | .arguments => Nonterminal.operandFirst
  | .parameter => [.identifier]
  | .parameters => [.identifier]
  | .variableDecl => [.varKw]
  | .arrayDecl => [.arrayKw]
  | .functionDef => [.funcKw]
  | .declaration => Nonterminal.declaration.first
  | .declarations => Nonterminal.declaration.first
  | .assignment => [.letKw]
  | .callStatement => [.call]
  | .ifStatement => [.ifKw]
  | .whileStatement => [.whileKw]
  | .returnStatement => [.returnKw]
  | .statement => Nonterminal.statement.first
  | .statements => Nonterminal.statement.first
  | .block => [.openBrace]

namespace Ebnf

mutual

def opens (next : TokenKind) : Ebnf → Bool
  | token kind => kind = next
  | category c => c.first.contains next
  | sequence parts => firstOpens next parts
  | choice alternatives => anyOpens next alternatives
  | optional e => e.opens next
  | repeated e => e.opens next

def firstOpens (next : TokenKind) : List Ebnf → Bool
  | [] => false
  | e :: _ => e.opens next

def anyOpens (next : TokenKind) : List Ebnf → Bool
  | [] => false
  | e :: es => e.opens next || anyOpens next es

end

mutual

/-- Every choice in it has an alternative. -/
def isProper : Ebnf → Bool
  | token _ => true
  | category _ => true
  | sequence parts => areProper parts
  | choice alternatives => !alternatives.isEmpty && areProper alternatives
  | optional e => e.isProper
  | repeated e => e.isProper

def areProper : List Ebnf → Bool
  | [] => true
  | e :: es => e.isProper && areProper es

end

theorem areProper_iff {es : List Ebnf} : areProper es ↔ ∀ e ∈ es, e.isProper := by
  induction es with
  | nil => simp [areProper]
  | cons e es ih => simp [areProper, ih]

@[elab_as_elim]
theorem induct {P : Ebnf → Prop} (token : ∀ kind, P (token kind)) (category : ∀ c, P (category c))
    (sequence : ∀ parts, (∀ e ∈ parts, P e) → P (sequence parts))
    (choice : ∀ alternatives, (∀ e ∈ alternatives, P e) → P (choice alternatives))
    (optional : ∀ e, P e → P (optional e)) (repeated : ∀ e, P e → P (repeated e)) (e : Ebnf) :
    P e :=
  @Ebnf.rec P (fun es => ∀ e ∈ es, P e) token category sequence choice optional repeated
    (fun _ h => absurd h List.not_mem_nil) (fun _ _ he hes => List.forall_mem_cons.2 ⟨he, hes⟩) e

end Ebnf

theorem Category.rule_isProper (c : Category) : c.rule.isProper := by
  cases c <;> rfl

theorem Category.productive (c : Category) : ∃ kinds, Yields (.category c) kinds := by
  have hliteral : Yields (.category .literal) [.integer] := .category (.choice List.mem_cons_self .token)
  have hoperand : Yields (.category .operand) [.integer] := .category (.choice (by simp) hliteral)
  have hproduct : Yields (.category .product) _ := .category (.cons hoperand (.cons .none .nil))
  have hsum : Yields (.category .sum) _ := .category (.cons hproduct (.cons .none .nil))
  have hexpression : Yields (.category .expression) _ := .category (.cons hsum (.cons .absent .nil))
  have hdesignator : Yields (.category .designator) _ := .category (.cons .token (.cons .none .nil))
  have htype : Yields (.category .typeName) _ := .category .token
  have harguments : Yields (.category .arguments) _ := .category .absent
  have hcall : Yields (.category .call) _ := .category (.cons .token (.cons .token (.cons .token
    (.cons harguments (.cons .token .nil)))))
  have hparameters : Yields (.category .parameters) _ := .category .absent
  have hvariable : Yields (.category .variableDecl) _ := .category (.cons .token (.cons .token
    (.cons .token (.cons htype (.cons .token .nil)))))
  have hstatements : Yields (.category .statements) _ := .category .none
  have hblock : Yields (.category .block) _ := .category (.cons .token (.cons hstatements
    (.cons .token .nil)))
  cases c with
  | literal => exact ⟨_, hliteral⟩
  | designator => exact ⟨_, hdesignator⟩
  | typeName => exact ⟨_, htype⟩
  | comparisonOp | sumOp | productOp => exact ⟨_, .category (.choice List.mem_cons_self .token)⟩
  | expression => exact ⟨_, hexpression⟩
  | sum => exact ⟨_, hsum⟩
  | product => exact ⟨_, hproduct⟩
  | operand => exact ⟨_, hoperand⟩
  | call => exact ⟨_, hcall⟩
  | arguments => exact ⟨_, harguments⟩
  | parameter => exact ⟨_, .category (.cons .token (.cons .token (.cons htype .nil)))⟩
  | parameters => exact ⟨_, hparameters⟩
  | variableDecl => exact ⟨_, hvariable⟩
  | arrayDecl =>
    exact ⟨_, .category (.cons .token (.cons .token (.cons .token (.cons htype (.cons .token
      (.cons .token (.cons .token (.cons .none (.cons .token .nil)))))))))⟩
  | functionDef =>
    exact ⟨_, .category (.cons .token (.cons .token (.cons .token (.cons hparameters (.cons .token
      (.cons .token (.cons htype (.cons hblock .nil))))))))⟩
  | declaration => exact ⟨_, .category (.choice List.mem_cons_self hvariable)⟩
  | declarations => exact ⟨_, .category .none⟩
  | assignment =>
    exact ⟨_, .category (.cons .token (.cons hdesignator (.cons .token (.cons hexpression
      (.cons .token .nil)))))⟩
  | callStatement => exact ⟨_, .category (.cons hcall (.cons .token .nil))⟩
  | ifStatement =>
    exact ⟨_, .category (.cons .token (.cons hexpression (.cons hblock (.cons .absent .nil))))⟩
  | whileStatement => exact ⟨_, .category (.cons .token (.cons hexpression (.cons hblock .nil)))⟩
  | returnStatement =>
    exact ⟨_, .category (.cons .token (.cons hexpression (.cons .token .nil)))⟩
  | statement => exact ⟨_, .category (.choice List.mem_cons_self hvariable)⟩
  | statements => exact ⟨_, hstatements⟩
  | block => exact ⟨_, hblock⟩

theorem Ebnf.productive (e : Ebnf) (h : e.isProper) : ∃ kinds, Yields e kinds := by
  induction e using Ebnf.induct with
  | token kind => exact ⟨[kind], .token⟩
  | category c => exact c.productive
  | sequence parts ih =>
    have hparts := areProper_iff.1 h
    clear h
    induction parts with
    | nil => exact ⟨[], .nil⟩
    | cons part parts ihparts =>
      obtain ⟨ihpart, ihrest⟩ := List.forall_mem_cons.1 ih
      obtain ⟨hpart, hrest⟩ := List.forall_mem_cons.1 hparts
      obtain ⟨front, hfront⟩ := ihpart hpart
      obtain ⟨rest, hrest⟩ := ihparts ihrest hrest
      exact ⟨front ++ rest, .cons hfront hrest⟩
  | choice alternatives ih =>
    obtain ⟨hsome, hproper⟩ := Bool.and_eq_true_iff.1 h
    cases alternatives with
    | nil => cases hsome
    | cons e es =>
      obtain ⟨kinds, hkinds⟩ := ih e List.mem_cons_self (areProper_iff.1 hproper e List.mem_cons_self)
      exact ⟨kinds, .choice List.mem_cons_self hkinds⟩
  | optional e => exact ⟨[], .absent⟩
  | repeated e => exact ⟨[], .none⟩

/-- How reading ends: done before the next token, refusing it, or halted by the last one. -/
inductive Outcome where
  | done (next : TokenKind)
  | refused (next : TokenKind)
  | halted

namespace Outcome

def isDone : Outcome → Bool
  | done _ => true
  | _ => false

def shown : Outcome → List TokenKind
  | done next => [next]
  | refused next => [next]
  | halted => []

/-- The first token that is passed or looked at. -/
def Sees (o : Outcome) (passed : List TokenKind) (next : TokenKind) : Prop :=
  (passed ++ o.shown).head? = some next

section

variable {o o' : Outcome} {passed passed' more more' : List TokenKind} {next next' : TokenKind}

theorem Sees.exists_tail (h : o.Sees passed next) : ∃ tail, passed ++ o.shown = next :: tail :=
  List.head?_eq_some_iff.1 h

theorem Sees.append (h : (done next).Sees passed next') (h' : o.Sees passed' next) :
    o.Sees (passed ++ passed') next' := by
  rw [Sees, shown, List.head?_append] at h
  rw [Sees] at h' ⊢
  rw [List.append_assoc, List.head?_append, h']
  exact h

theorem Sees.unique (h : o.Sees passed next) (h' : o'.Sees passed' next')
    (heq : passed ++ o.shown ++ more = passed' ++ o'.shown ++ more') : next = next' := by
  obtain ⟨tail, htail⟩ := h.exists_tail
  obtain ⟨tail', htail'⟩ := h'.exists_tail
  rw [htail, htail'] at heq
  exact (List.cons.inj heq).1

end

end Outcome

/-- What is passed, and how reading ends, if the next token makes each choice. -/
inductive Predicts : Ebnf → List TokenKind → Outcome → Prop
  | token {kind next : TokenKind} : Predicts (.token kind) [kind] (.done next)
  | wrong {kind next : TokenKind} : next ≠ kind → Predicts (.token kind) [] (.refused next)
  | halt {kind : TokenKind} : Predicts (.token kind) [kind] .halted
  | category {c : Category} {passed : List TokenKind} {o : Outcome} :
      Predicts c.rule passed o → Predicts (.category c) passed o
  | nil {next : TokenKind} : Predicts (.sequence []) [] (.done next)
  | cons {part : Ebnf} {parts : List Ebnf} {front rest : List TokenKind} {next : TokenKind}
      {o : Outcome} :
      Predicts part front (.done next) → Predicts (.sequence parts) rest o → o.Sees rest next →
      Predicts (.sequence (part :: parts)) (front ++ rest) o
  | stop {part : Ebnf} {parts : List Ebnf} {passed : List TokenKind} {o : Outcome} :
      Predicts part passed o → o.isDone = false → Predicts (.sequence (part :: parts)) passed o
  | choice {alternatives : List Ebnf} {e : Ebnf} {passed : List TokenKind} {next : TokenKind}
      {o : Outcome} :
      alternatives.find? (Ebnf.opens next) = some e → Predicts e passed o → o.Sees passed next →
      Predicts (.choice alternatives) passed o
  | noChoice {alternatives : List Ebnf} {next : TokenKind} :
      alternatives.find? (Ebnf.opens next) = none →
      Predicts (.choice alternatives) [] (.refused next)
  | absent {e : Ebnf} {next : TokenKind} :
      e.opens next = false → Predicts (.optional e) [] (.done next)
  | present {e : Ebnf} {passed : List TokenKind} {next : TokenKind} {o : Outcome} :
      e.opens next = true → Predicts e passed o → o.Sees passed next →
      Predicts (.optional e) passed o
  | none {e : Ebnf} {next : TokenKind} :
      e.opens next = false → Predicts (.repeated e) [] (.done next)
  | more {e : Ebnf} {front rest : List TokenKind} {next after : TokenKind} {o : Outcome} :
      e.opens next = true → Predicts e front (.done after) → (Outcome.done after).Sees front next →
      Predicts (.repeated e) rest o → o.Sees rest after →
      Predicts (.repeated e) (front ++ rest) o
  | broken {e : Ebnf} {passed : List TokenKind} {next : TokenKind} {o : Outcome} :
      e.opens next = true → Predicts e passed o → o.Sees passed next → o.isDone = false →
      Predicts (.repeated e) passed o

namespace Predicts

variable {e : Ebnf} {passed : List TokenKind} {o : Outcome}

/-- What is passed is a sentence if reading is done, and can be continued to one in any case. -/
theorem yields (h : Predicts e passed o) (he : e.isProper) :
    (o.isDone → Yields e passed) ∧ ∃ more, Yields e (passed ++ more) := by
  induction h with
  | token => exact ⟨fun _ => .token, [], .token⟩
  | @wrong kind => exact ⟨fun h => (by cases h), [kind], .token⟩
  | halt => exact ⟨fun h => (by cases h), [], .token⟩
  | @category c _ _ _ ih =>
    obtain ⟨hdone, more, hmore⟩ := ih c.rule_isProper
    exact ⟨fun h => .category (hdone h), more, .category hmore⟩
  | nil => exact ⟨fun _ => .nil, [], .nil⟩
  | cons _ _ _ ihpart ihparts =>
    obtain ⟨hpart, hparts⟩ := Bool.and_eq_true_iff.1 he
    obtain ⟨hdone, more, hmore⟩ := ihparts hparts
    have hfront := (ihpart hpart).1 rfl
    refine ⟨fun h => .cons hfront (hdone h), more, ?_⟩
    rw [List.append_assoc]
    exact .cons hfront hmore
  | @stop _ parts _ _ _ hdone ih =>
    obtain ⟨hpart, hparts⟩ := Bool.and_eq_true_iff.1 he
    obtain ⟨_, more, hmore⟩ := ih hpart
    obtain ⟨rest, hrest⟩ := Ebnf.productive (.sequence parts) hparts
    refine ⟨fun h => absurd h (by simp [hdone]), more ++ rest, ?_⟩
    rw [← List.append_assoc]
    exact .cons hmore hrest
  | choice hfind _ _ ih =>
    have hmem := List.mem_of_find?_eq_some hfind
    obtain ⟨hdone, more, hmore⟩ := ih (Ebnf.areProper_iff.1 (Bool.and_eq_true_iff.1 he).2 _ hmem)
    exact ⟨fun h => .choice hmem (hdone h), more, .choice hmem hmore⟩
  | noChoice =>
    obtain ⟨kinds, hkinds⟩ := Ebnf.productive _ he
    exact ⟨fun h => (by cases h), kinds, hkinds⟩
  | absent => exact ⟨fun _ => .absent, [], .absent⟩
  | present _ _ _ ih =>
    obtain ⟨hdone, more, hmore⟩ := ih he
    exact ⟨fun h => .present (hdone h), more, .present hmore⟩
  | none => exact ⟨fun _ => .none, [], .none⟩
  | more _ _ _ _ _ ihfirst ihrest =>
    obtain ⟨hdone, more, hmore⟩ := ihrest he
    have hfront := (ihfirst he).1 rfl
    refine ⟨fun h => .more hfront (hdone h), more, ?_⟩
    rw [List.append_assoc]
    exact .more hfront hmore
  | broken _ _ _ hdone ih =>
    obtain ⟨_, more, hmore⟩ := ih he
    refine ⟨fun h => absurd h (by simp [hdone]), more, ?_⟩
    have hrepeated := Yields.more hmore .none
    rwa [List.append_nil] at hrepeated

theorem sees_refused {next : TokenKind} : (Outcome.refused next).Sees [] next := rfl

theorem sees_done {next : TokenKind} : (Outcome.done next).Sees [] next := rfl

theorem append_shown {front rest more : List TokenKind} {next : TokenKind} (h : o.Sees rest next) :
    ∃ others, front ++ rest ++ o.shown ++ more = front ++ (Outcome.done next).shown ++ others := by
  obtain ⟨tail, htail⟩ := h.exists_tail
  refine ⟨tail ++ more, ?_⟩
  rw [List.append_assoc front, htail]
  simp [Outcome.shown]

theorem cancel_front {front rest shown more rest' shown' more' : List TokenKind}
    (h : front ++ rest ++ shown ++ more = front ++ rest' ++ shown' ++ more') :
    rest ++ shown ++ more = rest' ++ shown' ++ more' := by
  simpa using h

theorem opens_conflict {passed' : List TokenKind} {o' : Outcome} {next next' : TokenKind}
    (hopens : e.opens next = true) (hopens' : e.opens next' = false) (hsees : o.Sees passed next)
    (hsees' : o'.Sees passed' next') {more more' : List TokenKind}
    (heq : passed ++ o.shown ++ more = passed' ++ o'.shown ++ more') : False := by
  obtain rfl := hsees.unique hsees' heq
  cases hopens.symm.trans hopens'

/-- The tokens that are passed and seen settle how far reading goes and how it ends, unless it is
halted. -/
theorem unique {passed' : List TokenKind} {o' : Outcome} (h : Predicts e passed o)
    (h' : Predicts e passed' o') (ho : o ≠ .halted) (ho' : o' ≠ .halted) {more more' : List TokenKind}
    (heq : passed ++ o.shown ++ more = passed' ++ o'.shown ++ more') : passed = passed' ∧ o = o' := by
  induction h generalizing passed' o' more more' with
  | @token kind next =>
    cases h' with
    | token =>
      have hnext := (List.cons.inj (List.cons.inj heq).2).1
      exact ⟨rfl, congrArg Outcome.done hnext⟩
    | wrong hne => exact absurd (List.cons.inj heq).1.symm hne
    | halt => exact absurd rfl ho'
  | wrong hne =>
    cases h' with
    | token => exact absurd (List.cons.inj heq).1 hne
    | wrong => exact ⟨rfl, congrArg Outcome.refused (List.cons.inj heq).1⟩
    | halt => exact absurd rfl ho'
  | halt => exact absurd rfl ho
  | category _ ih =>
    cases h' with
    | category h' => exact ih h' ho ho' heq
  | nil =>
    cases h' with
    | nil => exact ⟨rfl, congrArg Outcome.done (List.cons.inj heq).1⟩
  | cons _ _ hsees ihpart ihparts =>
    -- The first part of the sequence settles where the others begin.
    obtain ⟨others, hothers⟩ := append_shown hsees
    cases h' with
    | cons hpart' hparts' hsees' =>
      obtain ⟨others', hothers'⟩ := append_shown hsees'
      obtain ⟨rfl, _⟩ := ihpart hpart' (by simp) (by simp) (hothers.symm.trans (heq.trans hothers'))
      obtain ⟨rfl, rfl⟩ := ihparts hparts' ho ho' (cancel_front heq)
      exact ⟨rfl, rfl⟩
    | stop hpart' hdone' =>
      obtain ⟨_, rfl⟩ := ihpart hpart' (by simp) ho' (hothers.symm.trans heq)
      cases hdone'
  | stop _ hdone ih =>
    cases h' with
    | cons hpart' hparts' hsees' =>
      obtain ⟨others', hothers'⟩ := append_shown hsees'
      obtain ⟨_, rfl⟩ := ih hpart' ho (by simp) (heq.trans hothers')
      cases hdone
    | stop hpart' => exact ih hpart' ho ho' heq
  | choice hfind _ hsees ih =>
    cases h' with
    | choice hfind' h' hsees' =>
      obtain rfl := hsees.unique hsees' heq
      obtain rfl := Option.some.inj (hfind.symm.trans hfind')
      exact ih h' ho ho' heq
    | noChoice hfind' =>
      obtain rfl := hsees.unique sees_refused heq
      cases hfind.symm.trans hfind'
  | noChoice hfind =>
    cases h' with
    | choice hfind' h' hsees' =>
      obtain rfl := sees_refused.unique hsees' heq
      cases hfind.symm.trans hfind'
    | noChoice => exact ⟨rfl, congrArg Outcome.refused (sees_refused.unique sees_refused heq)⟩
  | absent hopens =>
    cases h' with
    | absent => exact ⟨rfl, congrArg Outcome.done (sees_done.unique sees_done heq)⟩
    | present hopens' h' hsees' => exact (opens_conflict hopens' hopens hsees' sees_done heq.symm).elim
  | present hopens _ hsees ih =>
    cases h' with
    | absent hopens' => exact (opens_conflict hopens hopens' hsees sees_done heq).elim
    | present hopens' h' hsees' => exact ih h' ho ho' heq
  | none hopens =>
    cases h' with
    | none => exact ⟨rfl, congrArg Outcome.done (sees_done.unique sees_done heq)⟩
    | more hopens' _ hsees' _ hseesRest' =>
      obtain ⟨others', hothers'⟩ := append_shown hseesRest'
      exact (opens_conflict hopens' hopens hsees' sees_done (heq.trans hothers').symm).elim
    | broken hopens' _ hsees' => exact (opens_conflict hopens' hopens hsees' sees_done heq.symm).elim
  | more hopens _ hsees _ hseesRest ihfirst ihrest =>
    obtain ⟨others, hothers⟩ := append_shown hseesRest
    cases h' with
    | none hopens' =>
      exact (opens_conflict hopens hopens' hsees sees_done (hothers.symm.trans heq)).elim
    | more _ hfirst' _ hrest' hseesRest' =>
      obtain ⟨others', hothers'⟩ := append_shown hseesRest'
      obtain ⟨rfl, _⟩ := ihfirst hfirst' (by simp) (by simp) (hothers.symm.trans (heq.trans hothers'))
      obtain ⟨rfl, rfl⟩ := ihrest hrest' ho ho' (cancel_front heq)
      exact ⟨rfl, rfl⟩
    | broken _ hfirst' _ hdone' =>
      obtain ⟨_, rfl⟩ := ihfirst hfirst' (by simp) ho' (hothers.symm.trans heq)
      cases hdone'
  | broken hopens _ hsees hdone ih =>
    cases h' with
    | none hopens' => exact (opens_conflict hopens hopens' hsees sees_done heq).elim
    | more _ hfirst' _ _ hseesRest' =>
      obtain ⟨others', hothers'⟩ := append_shown hseesRest'
      obtain ⟨_, rfl⟩ := ih hfirst' ho (by simp) (heq.trans hothers')
      cases hdone
    | broken _ hfirst' => exact ih hfirst' ho ho' heq

theorem append {parts others : List Ebnf} {front rest : List TokenKind} {next : TokenKind}
    (h : Predicts (.sequence parts) front (.done next)) (hrest : Predicts (.sequence others) rest o)
    (hsees : o.Sees rest next) : Predicts (.sequence (parts ++ others)) (front ++ rest) o := by
  induction parts generalizing front with
  | nil =>
    cases h
    exact hrest
  | cons part parts ih =>
    cases h with
    | cons hpart hparts hpartSees =>
      rw [List.append_assoc]
      exact .cons hpart (ih hparts) (hpartSees.append hsees)
    | stop _ hdone => cases hdone

theorem append_stop {parts others : List Ebnf} (h : Predicts (.sequence parts) passed o)
    (hdone : o.isDone = false) : Predicts (.sequence (parts ++ others)) passed o := by
  induction parts generalizing passed with
  | nil =>
    cases h
    cases hdone
  | cons part parts ih =>
    cases h with
    | cons hpart hparts hsees => exact .cons hpart (ih hparts) hsees
    | stop hpart => exact .stop hpart hdone

end Predicts

end MipsCompiler
