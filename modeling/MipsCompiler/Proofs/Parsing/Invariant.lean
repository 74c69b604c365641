import MipsCompiler.Proofs.Parsing.Derivation
import MipsCompiler.Proofs.Parsing.TwoRuns

set_option autoImplicit false

/-!
# Invariants of a parse

What a parser does to its state is said once, step by step: it passes a token, numbers a node, opens
or closes a scope, declares or resolves the name it has just passed, and gives a type to a symbol. It
is given up at the token ahead, or at a number that it has just passed. A property that all these
steps keep is kept by every parser, and `program_keeps` says so of a whole parse, whether it is given
up or not.
-/

namespace MipsCompiler

section

variable {σ : Type}

/-- The types that symbols are given: what an annotation names, an array of it, or the type of a
function whose parameters have their types already. -/
inductive ParseState.Assigns (s : ParseState σ) : Ty → Prop
  | named (name : String) : Assigns s (Ty.ofName name)
  | array (name : String) (outermost : Nat) (inner : List Nat) :
      Assigns s (Parser.arrayType (Ty.ofName name) (outermost :: inner))
  | func (params : List SymbolId) (name : String) :
      Assigns s (.func (params.map fun param => (s.scope.symbol param).ty) (Ty.ofName name))

end

/-- A property of parse states that every step keeps, and what holds when the parse is given up. -/
structure ParseInvariant (σ : Type) [TokenStream σ] where
  holds : ParseState σ → Prop
  givenUp : Diagnostic → ParseState σ → Prop
  advance {s : ParseState σ} : holds s → holds s.advance
  numbered {s : ParseState σ} : holds s → holds s.numbered
  entered {s : ParseState σ} : holds s → holds s.entered
  exited {s : ParseState σ} : holds s → holds s.exited
  declare {s : ParseState σ} {kind : SymbolKind} : holds s → s.token.kind = .identifier →
    (∀ message, kind ≠ .error message) → holds (s.advance.declare s.token kind).2
  resolve {s : ParseState σ} : holds s → s.token.kind = .identifier →
    holds (s.advance.resolve s.token).2
  retype {s : ParseState σ} {ty : Ty} : holds s → s.Assigns ty → ∀ id, holds (s.retype id ty)
  refuse {s : ParseState σ} : holds s → ∀ expected,
    givenUp (.unexpected s.token.pos expected s.token.kind.name) s
  outOfRange {s : ParseState σ} : holds s → givenUp (Parser.outOfRange s.token) s.advance

namespace ParseInvariant

variable {σ : Type} [TokenStream σ] {α β : Type}

/-- From a state with `pre`, the parser ends well in a state with `post`, or is given up as the
invariant says. -/
structure Triple (I : ParseInvariant σ) (pre : ParseState σ → Prop) (p : Parser σ α)
    (post : α → ParseState σ → Prop) : Prop where
  ok {s : ParseState σ} {a : α} {t : ParseState σ} : pre s → p s = .ok a t → post a t
  error {s : ParseState σ} {d : Diagnostic} {t : ParseState σ} : pre s → p s = .error d t →
    I.givenUp d t

def Keeps (I : ParseInvariant σ) (p : Parser σ α) : Prop :=
  I.Triple I.holds p fun _ => I.holds

/-- The token has just been passed. -/
def Passed (I : ParseInvariant σ) (token : Token) (s : ParseState σ) : Prop :=
  ∃ before, I.holds before ∧ token = before.token ∧ s = before.advance

variable {I : ParseInvariant σ} {pre : ParseState σ → Prop} {p : Parser σ α}
  {post : α → ParseState σ → Prop} {f : α → Parser σ β}

theorem Passed.holds {token : Token} {s : ParseState σ} (h : I.Passed token s) : I.holds s := by
  obtain ⟨before, hbefore, _, rfl⟩ := h
  exact I.advance hbefore

namespace Triple

theorem weaken {pre' : ParseState σ → Prop} {post' : α → ParseState σ → Prop}
    (h : I.Triple pre p post) (hpre : ∀ s, pre' s → pre s) (hpost : ∀ a s, post a s → post' a s) :
    I.Triple pre' p post' where
  ok hs hrun := hpost _ _ (h.ok (hpre _ hs) hrun)
  error hs hrun := h.error (hpre _ hs) hrun

theorem bind {final : β → ParseState σ → Prop} (hp : I.Triple pre p post)
    (hf : ∀ a, I.Triple (post a) (f a) final) : I.Triple pre (p >>= f) final where
  ok hs hrun := by
    obtain ⟨a, t, hfirst, hrest⟩ := bind_ok.1 hrun
    exact (hf a).ok (hp.ok hs hfirst) hrest
  error hs hrun := by
    rcases bind_error.1 hrun with hfirst | ⟨a, t, hfirst, hrest⟩
    · exact hp.error hs hfirst
    · exact (hf a).error (hp.ok hs hfirst) hrest

theorem step {next : ParseState σ → α × ParseState σ} (h : ∀ s, pre s → post (next s).1 (next s).2) :
    I.Triple pre (modifyGet next : Parser σ α) post where
  ok {s a t} hs hrun := by
    obtain ⟨rfl, rfl⟩ : a = (next s).1 ∧ t = (next s).2 := result_ok.1 hrun
    exact h s hs
  error _ hrun := by
    cases hrun

theorem advance : I.Triple I.holds Parser.advance I.Passed :=
  step fun s hs => ⟨s, hs, rfl, rfl⟩

theorem expect {kind : TokenKind} :
    I.Triple I.holds (Parser.expect kind) fun token s => token.kind = kind ∧ I.Passed token s where
  ok {s token t} hs hrun := by
    obtain ⟨hkind, rfl, rfl⟩ := Parser.expect_ok.1 hrun
    exact ⟨hkind, s, hs, rfl, rfl⟩
  error {s d t} hs hrun := by
    obtain ⟨_, rfl, rfl⟩ := Parser.expect_error.1 hrun
    exact I.refuse hs kind.name

end Triple

namespace Keeps

theorem bind (hp : I.Keeps p) (hf : ∀ a, I.Keeps (f a)) : I.Keeps (p >>= f) :=
  Triple.bind hp hf

theorem pure (a : α) : I.Keeps (Pure.pure a : Parser σ α) where
  ok hs hrun := by
    obtain ⟨rfl, rfl⟩ := pure_ok.1 hrun
    exact hs
  error _ hrun := by
    cases hrun

theorem peek {f : Token → Parser σ β} (hf : ∀ token, I.Keeps (f token)) :
    I.Keeps (Parser.peek >>= f) where
  ok hs hrun := (hf _).ok hs hrun
  error hs hrun := (hf _).error hs hrun

theorem remaining {f : Nat → Parser σ β} (hf : ∀ n, I.Keeps (f n)) :
    I.Keeps (Parser.remaining >>= f) where
  ok hs hrun := (hf _).ok hs hrun
  error hs hrun := (hf _).error hs hrun

theorem advance : I.Keeps Parser.advance :=
  Triple.advance.weaken (fun _ h => h) fun _ _ h => h.holds

theorem expect {kind : TokenKind} : I.Keeps (Parser.expect kind) :=
  Triple.expect.weaken (fun _ h => h) fun _ _ h => h.2.holds

theorem refuse {expected : String} : I.Keeps (Parser.refuse expected : Parser σ α) where
  ok _ hrun := absurd hrun Parser.refuse_ok
  error hs hrun := by
    cases hrun
    exact I.refuse hs expected

theorem freshNode {pos : Position} : I.Keeps (Parser.freshNode pos) :=
  Triple.step fun _ => I.numbered

theorem enterScope : I.Keeps Parser.enterScope :=
  Triple.step fun _ => I.entered

theorem exitScope : I.Keeps Parser.exitScope :=
  Triple.step fun _ => I.exited

theorem retype {id : SymbolId} {ty : Ty} (h : ∀ s : ParseState σ, s.Assigns ty) :
    I.Keeps (Parser.retype id ty) :=
  Triple.step fun s hs => I.retype hs (h s) id

theorem retypeFunction {id : SymbolId} {params : List SymbolId} {result : String}
    {f : PUnit → Parser σ β} (hf : ∀ u, I.Keeps (f u)) :
    I.Keeps (Parser.typesOf params >>= fun types =>
      Parser.retype id (.func types (Ty.ofName result)) >>= f) := by
  have hretype : I.Keeps (modifyGet fun s => (PUnit.unit, s.retype id
      (.func (params.map fun param => (s.scope.symbol param).ty) (Ty.ofName result)))) :=
    Triple.step fun s hs => I.retype hs (.func params result) id
  exact hretype.bind hf

theorem resolved {f : Token → SymbolId → Parser σ β} (hf : ∀ name id, I.Keeps (f name id)) :
    I.Keeps (Parser.expect .identifier >>= fun name => Parser.resolve name >>= f name) := by
  refine Triple.expect.bind fun name => Triple.bind (Triple.step ?_) (hf name)
  rintro _ ⟨hkind, before, hbefore, rfl, rfl⟩
  exact I.resolve hbefore hkind

theorem declared {kind : SymbolKind} {f : Token → SymbolId → Parser σ β}
    (hkind : ∀ message, kind ≠ .error message) (hf : ∀ name id, I.Keeps (f name id)) :
    I.Keeps (Parser.expect .identifier >>= fun name => Parser.declare name kind >>= f name) := by
  refine Triple.expect.bind fun name => Triple.bind (Triple.step ?_) (hf name)
  rintro _ ⟨hidentifier, before, hbefore, rfl, rfl⟩
  exact I.declare hbefore hidentifier hkind

theorem checked {token : Token} {result : Option α} :
    I.Triple (I.Passed token) (result.elim (throw (Parser.outOfRange token)) Pure.pure : Parser σ α)
      fun _ => I.holds := by
  cases result with
  | some a => exact (pure a).weaken (fun _ h => h.holds) fun _ _ h => h
  | none =>
    refine ⟨fun _ hrun => absurd hrun throw_ok, ?_⟩
    rintro s d t ⟨before, hbefore, rfl, rfl⟩ hrun
    cases hrun
    exact I.outOfRange hbefore

section

variable {test : TokenKind → Bool} {item : Parser σ α}

theorem many (hitem : I.Keeps item) (n : Nat) : I.Keeps (Parser.many test item n) := by
  induction n with
  | zero => exact pure []
  | succ n ih =>
    refine peek fun token => ?_
    split
    · exact hitem.bind fun x => ih.bind fun xs => pure _
    · exact pure []

theorem repeated (hitem : I.Keeps item) : I.Keeps (Parser.repeated test item) :=
  remaining (many hitem)

theorem extend {choose : TokenKind → Option β} {step : α → β → Parser σ α}
    (hstep : ∀ a b, I.Keeps (step a b)) (n : Nat) (a : α) :
    I.Keeps (Parser.extend choose step n a) := by
  induction n generalizing a with
  | zero => exact pure a
  | succ n ih =>
    refine peek fun token => ?_
    split
    · exact pure a
    · next b _ => exact (hstep a b).bind ih

theorem extended {choose : TokenKind → Option β} {step : α → β → Parser σ α}
    (hstep : ∀ a b, I.Keeps (step a b)) (a : α) : I.Keeps (Parser.extended choose step a) :=
  remaining fun n => extend hstep n a

theorem optionalList {nt : Nonterminal} (hitem : I.Keeps item) :
    I.Keeps (Parser.optionalList nt item) := by
  refine peek fun token => ?_
  split
  · refine hitem.bind fun x => ?_
    exact (repeated (advance.bind fun _ => hitem)).bind fun xs => pure _
  · exact pure []

end

end Keeps

end ParseInvariant

namespace Parser

open ParseInvariant (Keeps Triple)

variable {σ : Type} [TokenStream σ] {I : ParseInvariant σ}

section

variable {operand : Parser σ Expr} (hoperand : I.Keeps operand)

include hoperand

theorem binary_keeps (left : Expr) (op : BinaryOp) : I.Keeps (binary operand left op) :=
  Keeps.advance.bind fun _ => hoperand.bind fun _ => Keeps.freshNode.bind fun _ => .pure _

theorem chain_keeps (tier : Tier) : I.Keeps (chain tier operand) :=
  hoperand.bind fun first => .extended (binary_keeps hoperand) first

theorem sum_keeps : I.Keeps (sum operand) :=
  chain_keeps (chain_keeps hoperand .product) .sum

theorem comparison_keeps : I.Keeps (comparison operand) := by
  refine (sum_keeps hoperand).bind fun left => .peek fun token => ?_
  split
  · exact .pure left
  · next op _ => exact binary_keeps (sum_keeps hoperand) left op

theorem designator_keeps : I.Keeps (designator operand) := by
  refine .resolved fun name symbol => Keeps.freshNode.bind fun node => .extended (fun base _ => ?_) _
  refine Keeps.advance.bind fun _ => (comparison_keeps hoperand).bind fun offset => ?_
  exact Keeps.expect.bind fun _ => Keeps.freshNode.bind fun _ => .pure _

theorem callParts_keeps : I.Keeps (callParts operand) := by
  refine Keeps.expect.bind fun token => .resolved fun name callee => ?_
  refine Keeps.expect.bind fun _ => (Keeps.optionalList (comparison_keeps hoperand)).bind fun args => ?_
  exact Keeps.expect.bind fun _ => Keeps.freshNode.bind fun _ => .pure _

end

omit [TokenStream σ] in
theorem literalValue_eq (token : Token) :
    (literalValue token : Parser σ Literal) =
      token.literal?.elim (throw (outOfRange token)) pure := by
  unfold literalValue Token.literal?
  cases token.kind with
  | float => cases Single.ofText? token.lexeme <;> rfl
  | _ => rfl

theorem literal_keeps : I.Keeps (literal (σ := σ)) := by
  refine Triple.advance.bind fun token => ?_
  rw [literalValue_eq]
  exact Keeps.checked.bind fun _ => Keeps.freshNode.bind fun _ => .pure _

theorem operand_keeps (n : Nat) : I.Keeps (operand (σ := σ) n) := by
  induction n with
  | zero => exact .refuse
  | succ n ih =>
    refine .peek fun token => ?_
    split
    · exact Keeps.advance.bind fun _ => ih.bind fun _ => Keeps.freshNode.bind fun _ => .pure _
    · refine Keeps.advance.bind fun _ => (comparison_keeps ih).bind fun _ => ?_
      exact Keeps.expect.bind fun _ => .pure _
    · refine .peek fun token => (designator_keeps ih).bind fun place => ?_
      exact Keeps.freshNode.bind fun _ => .pure _
    · exact (callParts_keeps ih).bind fun _ => .pure _
    · split
      · exact literal_keeps
      · exact .refuse

theorem expression_keeps : I.Keeps (expression (σ := σ)) :=
  .remaining fun n => comparison_keeps (operand_keeps n)

theorem typeName_keeps {α : Type} {f : Ty → Parser σ α} (hf : ∀ name, I.Keeps (f (Ty.ofName name))) :
    I.Keeps (typeName >>= f) := by
  unfold typeName
  rw [bind_assoc]
  refine Keeps.expect.bind fun name => ?_
  rw [pure_bind]
  exact hf name.lexeme

theorem annotation_keeps {α : Type} {id : SymbolId} {f : PUnit → Parser σ α}
    (hf : ∀ u, I.Keeps (f u)) : I.Keeps (typeName >>= fun ty => retype id ty >>= f) :=
  typeName_keeps fun name => (Keeps.retype fun _ => .named name).bind hf

theorem variableDecl_keeps : I.Keeps (variableDecl (σ := σ)) := by
  refine Keeps.expect.bind fun token => .declared (fun _ => SymbolKind.noConfusion) fun name id => ?_
  refine Keeps.expect.bind fun _ => annotation_keeps fun _ => ?_
  exact Keeps.expect.bind fun _ => Keeps.freshNode.bind fun _ => .pure _

theorem callStatement_keeps : I.Keeps (callStatement (σ := σ)) := by
  refine .remaining fun n => (callParts_keeps (operand_keeps n)).bind fun parts => ?_
  exact Keeps.expect.bind fun _ => .pure _

theorem assignment_keeps : I.Keeps (assignment (σ := σ)) := by
  refine Keeps.expect.bind fun token => .remaining fun n => ?_
  refine (designator_keeps (operand_keeps n)).bind fun target => Keeps.expect.bind fun _ => ?_
  refine expression_keeps.bind fun source => Keeps.expect.bind fun _ => ?_
  exact Keeps.freshNode.bind fun _ => .pure _

theorem returnStatement_keeps : I.Keeps (returnStatement (σ := σ)) := by
  refine Keeps.expect.bind fun token => expression_keeps.bind fun value => ?_
  exact Keeps.expect.bind fun _ => Keeps.freshNode.bind fun _ => .pure _

section

variable {statement : Parser σ Stmt} (hstatement : I.Keeps statement)

include hstatement

theorem block_keeps (ownScope : Bool) : I.Keeps (block ownScope statement) := by
  have hclose (token : Token) (stmts : List Stmt) : I.Keeps (do
      let _ ← expect .closeBrace
      let node ← freshNode token.pos
      return .mk node stmts : Parser σ Block) :=
    Keeps.expect.bind fun _ => Keeps.freshNode.bind fun _ => .pure _
  refine Keeps.expect.bind fun token => ?_
  cases ownScope with
  | false => exact (Keeps.repeated hstatement).bind (hclose token)
  | true =>
    refine Keeps.enterScope.bind fun _ => (Keeps.repeated hstatement).bind fun stmts => ?_
    exact Keeps.exitScope.bind fun _ => hclose token stmts

theorem elseBlock_keeps : I.Keeps (elseBlock statement) := by
  refine .peek fun token => ?_
  split
  · exact Keeps.advance.bind fun _ => block_keeps hstatement true
  · exact Keeps.freshNode.bind fun _ => .pure _

theorem ifStatement_keeps : I.Keeps (ifStatement statement) := by
  refine Keeps.expect.bind fun token => expression_keeps.bind fun condition => ?_
  refine (block_keeps hstatement true).bind fun taken => ?_
  exact (elseBlock_keeps hstatement).bind fun _ => Keeps.freshNode.bind fun _ => .pure _

theorem whileStatement_keeps : I.Keeps (whileStatement statement) := by
  refine Keeps.expect.bind fun token => expression_keeps.bind fun condition => ?_
  exact (block_keeps hstatement true).bind fun _ => Keeps.freshNode.bind fun _ => .pure _

end

theorem statement_keeps (n : Nat) : I.Keeps (statement (σ := σ) n) := by
  induction n with
  | zero => exact .refuse
  | succ n ih =>
    refine .peek fun token => ?_
    split
    · exact variableDecl_keeps.bind fun _ => .pure _
    · exact callStatement_keeps
    · exact assignment_keeps
    · exact ifStatement_keeps ih
    · exact whileStatement_keeps ih
    · exact returnStatement_keeps
    · exact .refuse

theorem extent_keeps : I.Keeps (extent (σ := σ)) := by
  have hread : (extent : Parser σ Nat) = do
      let _ ← expect .openBracket
      let literal ← expect .integer
      let value ← (Numeral.extent? literal.lexeme).elim (throw (outOfRange literal)) pure
      let _ ← expect .closeBracket
      return value := by
    refine congrArg (expect .openBracket >>= ·) (funext fun _ => ?_)
    refine congrArg (expect .integer >>= ·) (funext fun literal => ?_)
    cases Numeral.extent? literal.lexeme <;> rfl
  rw [hread]
  refine Keeps.expect.bind fun _ => Triple.expect.bind fun literal => ?_
  refine Triple.bind (Keeps.checked.weaken (fun _ h => h.2) fun _ _ h => h) fun value => ?_
  exact Keeps.expect.bind fun _ => .pure _

theorem arrayDecl_keeps : I.Keeps (arrayDecl (σ := σ)) := by
  refine Keeps.expect.bind fun token => .declared (fun _ => SymbolKind.noConfusion) fun name id => ?_
  refine Keeps.expect.bind fun _ => typeName_keeps fun base => extent_keeps.bind fun outermost => ?_
  refine (Keeps.repeated extent_keeps).bind fun inner => Keeps.expect.bind fun _ => ?_
  refine (Keeps.retype fun _ => .array base outermost inner).bind fun _ => ?_
  exact Keeps.freshNode.bind fun _ => .pure _

theorem parameter_keeps : I.Keeps (parameter (σ := σ)) := by
  refine .declared (fun _ => SymbolKind.noConfusion) fun name id => ?_
  exact Keeps.expect.bind fun _ => annotation_keeps fun _ => .pure _

theorem functionDef_keeps : I.Keeps (functionDef (σ := σ)) := by
  refine Keeps.expect.bind fun token => .declared (fun _ => SymbolKind.noConfusion) fun name id => ?_
  refine Keeps.expect.bind fun _ => Keeps.enterScope.bind fun _ => ?_
  refine (Keeps.optionalList parameter_keeps).bind fun params => Keeps.expect.bind fun _ => ?_
  refine Keeps.expect.bind fun _ => typeName_keeps fun result => ?_
  refine .retypeFunction fun _ => .remaining fun n => ?_
  refine (block_keeps (statement_keeps n) false).bind fun body => ?_
  exact Keeps.exitScope.bind fun _ => Keeps.freshNode.bind fun _ => .pure _

theorem declaration_keeps : I.Keeps (declaration (σ := σ)) := by
  refine .peek fun token => ?_
  split
  · exact variableDecl_keeps.bind fun _ => .pure _
  · exact arrayDecl_keeps.bind fun _ => .pure _
  · exact functionDef_keeps.bind fun _ => .pure _
  · exact .refuse

theorem program_keeps : I.Keeps (program (σ := σ)) := by
  refine .peek fun token => (Keeps.repeated declaration_keeps).bind fun decls => ?_
  exact Keeps.expect.bind fun _ => Keeps.freshNode.bind fun _ => .pure _

end Parser

/-- What an invariant says of a parse: it holds at the end, or the parse has been given up. -/
theorem ParseInvariant.parse_cases {σ : Type} [TokenStream σ] (I : ParseInvariant σ) {stream : σ}
    (h : I.holds (.start stream)) :
    (∃ node decls s, I.holds s ∧
      parse stream = ⟨.program node decls, s.scope.symbols, s.log, s.nodeCount⟩) ∨
    ∃ d s, I.givenUp d s ∧ parse stream =
      ⟨.error ⟨s.nodeCount, d.pos⟩ d.line, s.scope.symbols, s.log ++ [d], s.nodeCount + 1⟩ := by
  cases hrun : Parser.program (.start stream) with
  | ok tree s =>
    obtain ⟨decls, u, _, _, rfl, _⟩ := Parser.program_ok.1 hrun
    exact .inl ⟨_, decls, s, Parser.program_keeps.ok h hrun, parse_of_ok hrun⟩
  | error d s => exact .inr ⟨d, s, Parser.program_keeps.error h hrun, parse_of_error hrun⟩

end MipsCompiler
