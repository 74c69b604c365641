import MipsCompiler.Proofs.Parsing.Step
import MipsCompiler.Proofs.Parts

set_option autoImplicit false

/-!
# Derivations

What a parser that ends well has read, as a relation between the states around a phrase. Each rule
is one alternative of the grammar: it names the tokens it passes and the states between its parts,
and the node it makes. The relations do not count tokens ahead and have no loops, so that facts
about parsed trees are proved by induction on them. `program_sound` says that they hold of every
successful run.
-/

namespace MipsCompiler

/-- The rules for expressions and their parts. `rest` are the arguments behind the first. -/
inductive Rule where
  | operand
  | tier (tier : Tier)
  | designator
  | call
  | arguments
  | rest

def Tier.below : Tier → Rule
  | product => .operand
  | sum => .tier product
  | comparison => .tier sum

/-- The rule for the left operand of a tier. Comparisons do not chain. -/
def Tier.left : Tier → Rule
  | product => .tier product
  | sum => .tier sum
  | comparison => .tier sum

inductive StmtRule where
  | statement
  | statements
  | block (ownScope : Bool)
  | otherwise

def Token.literal? (token : Token) : Option Literal :=
  match token.kind with
  | .integer => some (.int (Numeral.word token.lexeme))
  | .float => (Single.ofText? token.lexeme).map .float
  | .trueKw => some (.bool true)
  | _ => some (.bool false)

namespace Parser

theorem literalValue_ok {σ : Type} {s t : ParseState σ} {token : Token} {value : Literal}
    (h : literalValue token s = .ok value t) : token.literal? = some value ∧ t = s := by
  unfold literalValue at h
  unfold Token.literal?
  generalize token.kind = kind at h ⊢
  cases kind with
  | float =>
    cases hvalue : Single.ofText? token.lexeme with
    | none => simp only [hvalue] at h; exact absurd h throw_ok
    | some x =>
      simp only [hvalue] at h
      obtain ⟨rfl, rfl⟩ := pure_ok.1 h
      exact ⟨rfl, rfl⟩
  | _ =>
    obtain ⟨rfl, rfl⟩ := pure_ok.1 h
    exact ⟨rfl, rfl⟩

variable {σ : Type} [TokenStream σ]

inductive Derives : Rule → ParseState σ → Phrase → ParseState σ → Prop
  | literal {s : ParseState σ} {value : Literal} :
      Nonterminal.literal.starts s.token.kind → s.token.literal? = some value →
      Derives .operand s (.expr (.literal (s.advance.node s.token.pos) value)) s.advance.numbered
  | negation {s t : ParseState σ} {e : Expr} :
      s.token.kind = .notKw → Derives .operand s.advance (.expr e) t →
      Derives .operand s (.expr (.not (t.node s.token.pos) e)) t.numbered
  | parenthesized {s t : ParseState σ} {e : Expr} :
      s.token.kind = .openParen → Derives (.tier .comparison) s.advance (.expr e) t →
      t.token.kind = .closeParen → Derives .operand s (.expr e) t.advance
  | load {s t : ParseState σ} {place : Expr} :
      Derives .designator s (.expr place) t →
      Derives .operand s (.expr (.deref (t.node s.token.pos) place)) t.numbered
  | called {s t : ParseState σ} {e : Expr} :
      Derives .call s (.expr e) t → Derives .operand s (.expr e) t
  | promoted {s t : ParseState σ} {tier : Tier} {e : Expr} :
      Derives tier.below s (.expr e) t → Derives (.tier tier) s (.expr e) t
  | binary {s t u : ParseState σ} {tier : Tier} {op : BinaryOp} {left right : Expr} :
      Derives tier.left s (.expr left) t → tier.operator? t.token.kind = some op →
      Derives tier.below t.advance (.expr right) u →
      Derives (.tier tier) s (.expr (.binary (u.node t.token.pos) op left right)) u.numbered
  | name {s t : ParseState σ} {id : SymbolId} :
      s.token.kind = .identifier → s.advance.resolve s.token = (id, t) →
      Derives .designator s (.expr (.address (t.node s.token.pos) id)) t.numbered
  | subscript {s t u : ParseState σ} {base offset : Expr} :
      Derives .designator s (.expr base) t → t.token.kind = .openBracket →
      Derives (.tier .comparison) t.advance (.expr offset) u → u.token.kind = .closeBracket →
      Derives .designator s (.expr (.index (u.advance.node s.token.pos) base offset))
        u.advance.numbered
  | call {s t u : ParseState σ} {callee : SymbolId} {args : List Expr} :
      s.token.kind = .call → s.advance.token.kind = .identifier →
      s.advance.advance.resolve s.advance.token = (callee, t) → t.token.kind = .openParen →
      Derives .arguments t.advance (.args args) u → u.token.kind = .closeParen →
      Derives .call s (.expr (.call (u.advance.node s.token.pos) callee args)) u.advance.numbered
  | noArguments {s : ParseState σ} : Derives .arguments s (.args []) s
  | arguments {s t u : ParseState σ} {e : Expr} {es : List Expr} :
      Derives (.tier .comparison) s (.expr e) t → Derives .rest t (.args es) u →
      Derives .arguments s (.args (e :: es)) u
  | noMore {s : ParseState σ} : Derives .rest s (.args []) s
  | more {s t u : ParseState σ} {e : Expr} {es : List Expr} :
      s.token.kind = .comma → Derives (.tier .comparison) s.advance (.expr e) t →
      Derives .rest t (.args es) u → Derives .rest s (.args (e :: es)) u

/-- A name, declared as soon as it is read, and the type annotated to it. -/
inductive Annotates (kind : SymbolKind) : ParseState σ → SymbolId → ParseState σ → Prop
  | intro {s t : ParseState σ} {id : SymbolId} :
      s.token.kind = .identifier → s.advance.declare s.token kind = (id, t) →
      t.token.kind = .colon → t.advance.token.kind = .identifier →
      Annotates kind s id (t.advance.advance.retype id (Ty.ofName t.advance.token.lexeme))

inductive DerivesVar : ParseState σ → VarDecl → ParseState σ → Prop
  | intro {s t : ParseState σ} {id : SymbolId} :
      s.token.kind = .varKw → Annotates .var s.advance id t → t.token.kind = .semicolon →
      DerivesVar s ⟨t.advance.node s.token.pos, id⟩ t.advance.numbered

inductive DerivesStmt : StmtRule → ParseState σ → StmtPhrase → ParseState σ → Prop
  | var {s t : ParseState σ} {decl : VarDecl} :
      DerivesVar s decl t → DerivesStmt .statement s (.stmt (.var decl)) t
  | call {s t : ParseState σ} {node : Node} {callee : SymbolId} {args : List Expr} :
      Derives .call s (.expr (.call node callee args)) t → t.token.kind = .semicolon →
      DerivesStmt .statement s (.stmt (.call node callee args)) t.advance
  | assign {s t u : ParseState σ} {target source : Expr} :
      s.token.kind = .letKw → Derives .designator s.advance (.expr target) t →
      t.token.kind = .assign → Derives (.tier .comparison) t.advance (.expr source) u →
      u.token.kind = .semicolon →
      DerivesStmt .statement s (.stmt (.assign (u.advance.node s.token.pos) target source))
        u.advance.numbered
  | ret {s t : ParseState σ} {value : Expr} :
      s.token.kind = .returnKw → Derives (.tier .comparison) s.advance (.expr value) t →
      t.token.kind = .semicolon →
      DerivesStmt .statement s (.stmt (.ret (t.advance.node s.token.pos) value)) t.advance.numbered
  | branch {s t u v : ParseState σ} {condition : Expr} {thenBlock elseBlock : Block} :
      s.token.kind = .ifKw → Derives (.tier .comparison) s.advance (.expr condition) t →
      DerivesStmt (.block true) t (.block thenBlock) u →
      DerivesStmt .otherwise u (.block elseBlock) v →
      DerivesStmt .statement s (.stmt (.branch (v.node s.token.pos) condition thenBlock elseBlock))
        v.numbered
  | loop {s t u : ParseState σ} {condition : Expr} {body : Block} :
      s.token.kind = .whileKw → Derives (.tier .comparison) s.advance (.expr condition) t →
      DerivesStmt (.block true) t (.block body) u →
      DerivesStmt .statement s (.stmt (.loop (u.node s.token.pos) condition body)) u.numbered
  | block {s t : ParseState σ} {ownScope : Bool} {stmts : List Stmt} :
      s.token.kind = .openBrace →
      DerivesStmt .statements (s.advance.opened ownScope) (.stmts stmts) t →
      (t.closed ownScope).token.kind = .closeBrace →
      DerivesStmt (.block ownScope) s
        (.block (.mk ((t.closed ownScope).advance.node s.token.pos) stmts))
        (t.closed ownScope).advance.numbered
  | otherwise {s t : ParseState σ} {block : Block} :
      s.token.kind = .elseKw → DerivesStmt (.block true) s.advance (.block block) t →
      DerivesStmt .otherwise s (.block block) t
  | missing {s : ParseState σ} :
      s.token.kind ≠ .elseKw →
      DerivesStmt .otherwise s (.block (.mk (s.node s.token.pos) [])) s.numbered
  | nil {s : ParseState σ} : DerivesStmt .statements s (.stmts []) s
  | cons {s t u : ParseState σ} {stmt : Stmt} {stmts : List Stmt} :
      DerivesStmt .statement s (.stmt stmt) t → DerivesStmt .statements t (.stmts stmts) u →
      DerivesStmt .statements s (.stmts (stmt :: stmts)) u

inductive DerivesExtent : ParseState σ → Nat → ParseState σ → Prop
  | intro {s : ParseState σ} {n : Nat} :
      s.token.kind = .openBracket → s.advance.token.kind = .integer →
      Numeral.extent? s.advance.token.lexeme = some n →
      s.advance.advance.token.kind = .closeBracket →
      DerivesExtent s n s.advance.advance.advance

inductive DerivesArray : ParseState σ → VarDecl → ParseState σ → Prop
  | intro {s t u : ParseState σ} {id : SymbolId} {extents : List Nat} :
      s.token.kind = .arrayKw → s.advance.token.kind = .identifier →
      s.advance.advance.declare s.advance.token .array = (id, t) → t.token.kind = .colon →
      t.advance.token.kind = .identifier → extents ≠ [] →
      Items DerivesExtent t.advance.advance extents u → u.token.kind = .semicolon →
      DerivesArray s
        ⟨(u.advance.retype id
          (arrayType (Ty.ofName t.advance.token.lexeme) extents)).node s.token.pos, id⟩
        (u.advance.retype id (arrayType (Ty.ofName t.advance.token.lexeme) extents)).numbered

inductive DerivesParam : ParseState σ → SymbolId → ParseState σ → Prop
  | intro {s t : ParseState σ} {id : SymbolId} :
      s.token.kind = .comma → Annotates .param s.advance id t → DerivesParam s id t

inductive DerivesParams : ParseState σ → List SymbolId → ParseState σ → Prop
  | none {s : ParseState σ} : DerivesParams s [] s
  | some {s t u : ParseState σ} {id : SymbolId} {ids : List SymbolId} :
      Annotates .param s id t → Items DerivesParam t ids u → DerivesParams s (id :: ids) u

/-- The states of a function definition: `t` is behind its name, `u` behind its parameters and `v`
behind its body. -/
inductive DerivesFunction : ParseState σ → FuncDef → ParseState σ → Prop
  | intro {s t u v : ParseState σ} {id : SymbolId} {params : List SymbolId} {body : Block} :
      s.token.kind = .funcKw → s.advance.token.kind = .identifier →
      s.advance.advance.declare s.advance.token .func = (id, t) → t.token.kind = .openParen →
      DerivesParams t.advance.entered params u → u.token.kind = .closeParen →
      u.advance.token.kind = .colon → u.advance.advance.token.kind = .identifier →
      DerivesStmt (.block false)
        (u.advance.advance.advance.retype id
          (.func (params.map fun p => (u.scope.symbol p).ty)
            (Ty.ofName u.advance.advance.token.lexeme)))
        (.block body) v →
      DerivesFunction s ⟨v.exited.node s.token.pos, id, params, body⟩ v.exited.numbered

inductive DerivesDecl : ParseState σ → Decl → ParseState σ → Prop
  | var {s t : ParseState σ} {decl : VarDecl} : DerivesVar s decl t → DerivesDecl s (.var decl) t
  | array {s t : ParseState σ} {decl : VarDecl} :
      DerivesArray s decl t → DerivesDecl s (.array decl) t
  | func {s t : ParseState σ} {definition : FuncDef} :
      DerivesFunction s definition t → DerivesDecl s (.func definition) t

inductive DerivesProgram : ParseState σ → Tree → ParseState σ → Prop
  | intro {s t : ParseState σ} {decls : List Decl} :
      Items DerivesDecl s decls t → t.token.kind = .eof →
      DerivesProgram s (.program (t.advance.node s.token.pos) decls) t.advance.numbered

variable {s t : ParseState σ}

/-- Every successful run of an expression parser is a derivation by the rule. -/
def Sound (p : Parser σ Expr) (rule : Rule) : Prop :=
  ∀ s e t, p s = .ok e t → Derives rule s (.expr e) t

section

variable {operand : Parser σ Expr}

theorem binary_sound {tier : Tier} (hoperand : Sound operand tier.below) {u : ParseState σ}
    {left e : Expr} {op : BinaryOp} (hleft : Derives tier.left s (.expr left) t)
    (hop : tier.operator? t.token.kind = some op) (h : binary operand left op t = .ok e u) :
    Derives (.tier tier) s (.expr e) u := by
  simp only [binary, bind_ok, advance_ok, freshNode_ok, pure_ok, and_assoc, exists_and_left,
    exists_eq_left] at h
  obtain ⟨right, v, hright, rfl, rfl⟩ := h
  exact .binary hleft hop (hoperand _ _ _ hright)

/-- Only the tiers that chain have their own chains on the left. -/
theorem chain_sound {tier : Tier} (htier : tier.left = .tier tier)
    (hoperand : Sound operand tier.below) : Sound (chain tier operand) (.tier tier) := by
  intro s e t h
  simp only [chain, bind_ok] at h
  obtain ⟨first, t', hfirst, h⟩ := h
  refine extended_ok (R := fun e t => Derives (.tier tier) s (.expr e) t) ?_
    (.promoted (hoperand _ _ _ hfirst)) h
  intro left op t e' u hleft hop hstep
  exact binary_sound hoperand (htier ▸ hleft) hop hstep

theorem sum_sound (hoperand : Sound operand .operand) : Sound (sum operand) (.tier .sum) := by
  have hproduct : Sound (chain .product operand) (.tier .product) := chain_sound rfl hoperand
  exact chain_sound rfl hproduct

theorem comparison_sound (hoperand : Sound operand .operand) :
    Sound (comparison operand) (.tier .comparison) := by
  intro s e u h
  have hsum := sum_sound hoperand
  simp only [comparison, bind_ok, peek_ok, and_assoc, exists_and_left, exists_eq_left] at h
  obtain ⟨left, t, hleft, h⟩ := h
  cases hop : Tier.comparison.operator? t.token.kind with
  | none =>
    rw [hop] at h
    obtain ⟨rfl, rfl⟩ := pure_ok.1 h
    exact .promoted (hsum _ _ _ hleft)
  | some op =>
    rw [hop] at h
    exact binary_sound hsum (hsum _ _ _ hleft) hop h

theorem subscript_sound (hoperand : Sound operand .operand) {u : ParseState σ} {base e : Expr}
    (hbase : Derives .designator s (.expr base) t) (hopen : t.token.kind = .openBracket)
    (h : subscript operand s.token base t = .ok e u) : Derives .designator s (.expr e) u := by
  simp only [subscript, bind_ok, advance_ok, expect_ok, freshNode_ok, pure_ok, and_assoc,
    exists_and_left, exists_eq_left] at h
  obtain ⟨offset, v, hoffset, hclose, rfl, rfl⟩ := h
  exact .subscript hbase hopen (comparison_sound hoperand _ _ _ hoffset) hclose

theorem designator_sound (hoperand : Sound operand .operand) :
    Sound (designator operand) .designator := by
  intro s e u h
  simp only [designator, bind_ok, expect_ok, resolve_ok, freshNode_ok, and_assoc, exists_and_left,
    exists_eq_left] at h
  obtain ⟨hk, id, t, hresolve, h⟩ := h
  refine extended_ok (R := fun e t => Derives .designator s (.expr e) t) ?_ (.name hk hresolve) h
  intro base _ t e' v hbase hk hstep
  refine subscript_sound hoperand hbase ?_ hstep
  by_cases hopen : t.token.kind = .openBracket
  · exact hopen
  · simp [hopen] at hk

theorem rest_sound {es : List Expr}
    (h : Items (fun s e t => s.token.kind = .comma ∧
      Derives (.tier .comparison) s.advance (.expr e) t) s es t) :
    Derives .rest s (.args es) t := by
  induction h with
  | nil => exact .noMore
  | cons hitem _ ih => exact .more hitem.1 hitem.2 ih

theorem arguments_sound (hoperand : Sound operand .operand) {es : List Expr}
    (h : optionalList .expression (comparison operand) s = .ok es t) :
    Derives .arguments s (.args es) t := by
  simp only [optionalList, bind_ok, peek_ok, and_assoc, exists_and_left, exists_eq_left] at h
  split at h
  · simp only [commaSeparated, bind_ok, pure_ok] at h
    obtain ⟨e, t, he, es, _, hes, rfl, rfl⟩ := h
    refine .arguments (comparison_sound hoperand _ _ _ he) (rest_sound (repeated_ok ?_ hes))
    intro s e t hcomma h
    simp only [bind_ok, advance_ok, and_assoc, exists_and_left, exists_eq_left] at h
    exact ⟨of_decide_eq_true hcomma, comparison_sound hoperand _ _ _ h⟩
  · obtain ⟨rfl, rfl⟩ := pure_ok.1 h
    exact .noArguments

theorem callParts_sound (hoperand : Sound operand .operand) {node : Node} {callee : SymbolId}
    {args : List Expr} (h : callParts operand s = .ok (node, callee, args) t) :
    Derives .call s (.expr (.call node callee args)) t := by
  simp only [callParts, bind_ok, expect_ok, resolve_ok, freshNode_ok, pure_ok, Prod.mk.injEq,
    and_assoc, exists_and_left, exists_eq_left] at h
  obtain ⟨hcall, hname, _, u, hresolve, hopen, _, v, hargs, hclose, rfl, rfl, rfl, rfl⟩ := h
  exact .call hcall hname hresolve hopen (arguments_sound hoperand hargs) hclose

end

theorem literal_sound {e : Expr} {kind : TokenKind} (hk : s.token.kind = kind)
    (h : (if Nonterminal.literal.starts kind then literal else refuseFor .operand :
      Parser σ Expr) s = .ok e t) : Derives .operand s (.expr e) t := by
  subst hk
  split at h
  · next hstart =>
    simp only [literal, bind_ok, advance_ok, freshNode_ok, pure_ok, and_assoc, exists_and_left,
      exists_eq_left] at h
    obtain ⟨value, _, hvalue, rfl, rfl⟩ := h
    obtain ⟨hliteral, rfl⟩ := literalValue_ok hvalue
    exact .literal hstart hliteral
  · exact absurd h refuseFor_ok

theorem operand_sound (n : Nat) : Sound (operand (σ := σ) n) .operand := by
  induction n with
  | zero =>
    intro s e t h
    exact absurd h refuseFor_ok
  | succ n ih =>
    intro s e t h
    simp only [operand, bind_ok, peek_ok, and_assoc, exists_and_left, exists_eq_left] at h
    generalize hk : s.token.kind = kind at h
    cases kind with
    | notKw =>
      simp only [negation, bind_ok, advance_ok, freshNode_ok, pure_ok, and_assoc, exists_and_left,
        exists_eq_left] at h
      obtain ⟨e, t, he, rfl, rfl⟩ := h
      exact .negation hk (ih _ _ _ he)
    | openParen =>
      simp only [parenthesized, bind_ok, advance_ok, expect_ok, pure_ok, and_assoc,
        exists_and_left, exists_eq_left] at h
      obtain ⟨e, t, he, hclose, rfl, rfl⟩ := h
      exact .parenthesized hk (comparison_sound ih _ _ _ he) hclose
    | identifier =>
      simp only [load, bind_ok, peek_ok, freshNode_ok, pure_ok, and_assoc, exists_and_left,
        exists_eq_left] at h
      obtain ⟨place, t, hplace, rfl, rfl⟩ := h
      exact .load (designator_sound ih _ _ _ hplace)
    | call =>
      simp only [callExpression, bind_ok, pure_ok] at h
      obtain ⟨⟨node, callee, args⟩, t, hcall, rfl, rfl⟩ := h
      exact .called (callParts_sound ih hcall)
    | _ => exact literal_sound hk h

theorem expression_sound : Sound (expression (σ := σ)) (.tier .comparison) := by
  intro s e t h
  simp only [expression, bind_ok, remaining_ok, and_assoc, exists_and_left, exists_eq_left] at h
  exact comparison_sound (operand_sound _) _ _ _ h

theorem variableDecl_sound {decl : VarDecl} (h : variableDecl s = .ok decl t) :
    DerivesVar s decl t := by
  simp only [variableDecl, bind_ok, expect_ok, declare_ok, typeName_ok, retype_ok, freshNode_ok,
    pure_ok, and_assoc, exists_and_left, exists_eq_left, exists_const] at h
  obtain ⟨hvar, hname, id, u, hdeclare, hcolon, htype, hend, rfl, rfl⟩ := h
  exact .intro hvar (.intro hname hdeclare hcolon htype) hend

theorem callStatement_sound {stmt : Stmt} (h : callStatement s = .ok stmt t) :
    DerivesStmt .statement s (.stmt stmt) t := by
  simp only [callStatement, bind_ok, remaining_ok, expect_ok, pure_ok, and_assoc, exists_and_left,
    exists_eq_left] at h
  obtain ⟨⟨node, callee, args⟩, u, hcall, hend, rfl, rfl⟩ := h
  exact .call (callParts_sound (operand_sound _) hcall) hend

theorem assignment_sound {stmt : Stmt} (h : assignment s = .ok stmt t) :
    DerivesStmt .statement s (.stmt stmt) t := by
  simp only [assignment, bind_ok, remaining_ok, expect_ok, freshNode_ok, pure_ok, and_assoc,
    exists_and_left, exists_eq_left] at h
  obtain ⟨hlet, target, u, htarget, hassign, source, v, hsource, hend, rfl, rfl⟩ := h
  exact .assign hlet (designator_sound (operand_sound _) _ _ _ htarget) hassign
    (expression_sound _ _ _ hsource) hend

theorem returnStatement_sound {stmt : Stmt} (h : returnStatement s = .ok stmt t) :
    DerivesStmt .statement s (.stmt stmt) t := by
  simp only [returnStatement, bind_ok, expect_ok, freshNode_ok, pure_ok, and_assoc,
    exists_and_left, exists_eq_left] at h
  obtain ⟨hret, value, u, hvalue, hend, rfl, rfl⟩ := h
  exact .ret hret (expression_sound _ _ _ hvalue) hend

section

variable {statement : Parser σ Stmt}

/-- Every successful run of a statement parser is a derivation. -/
def SoundStmt (statement : Parser σ Stmt) : Prop :=
  ∀ s stmt t, statement s = .ok stmt t → DerivesStmt .statement s (.stmt stmt) t

theorem statements_sound {stmts : List Stmt}
    (h : Items (fun s stmt t => DerivesStmt .statement s (.stmt stmt) t) s stmts t) :
    DerivesStmt .statements s (.stmts stmts) t := by
  induction h with
  | nil => exact .nil
  | cons hitem _ ih => exact .cons hitem ih

theorem block_sound (hstatement : SoundStmt statement) {ownScope : Bool} {b : Block}
    (h : block ownScope statement s = .ok b t) :
    DerivesStmt (.block ownScope) s (.block b) t := by
  have hstmts {stmts : List Stmt} {s t : ParseState σ}
      (h : repeated Nonterminal.statement.starts statement s = .ok stmts t) :
      DerivesStmt .statements s (.stmts stmts) t :=
    statements_sound (repeated_ok (fun s stmt t _ h => hstatement s stmt t h) h)
  cases ownScope with
  | false =>
    simp only [block, bind_ok, expect_ok, freshNode_ok, pure_ok, Bool.false_eq_true, if_false,
      and_assoc, exists_and_left, exists_eq_left] at h
    obtain ⟨hopen, stmts, u, h, hclose, rfl, rfl⟩ := h
    have hblock := hstmts h
    change DerivesStmt .statements (s.advance.opened false) (.stmts stmts) u at hblock
    exact .block hopen hblock hclose
  | true =>
    simp only [block, bind_ok, expect_ok, enterScope_ok, exitScope_ok, freshNode_ok, pure_ok,
      if_true, and_assoc, exists_and_left, exists_eq_left, exists_const] at h
    obtain ⟨hopen, stmts, u, h, hclose, rfl, rfl⟩ := h
    have hblock := hstmts h
    change DerivesStmt .statements (s.advance.opened true) (.stmts stmts) u at hblock
    exact .block hopen hblock hclose

theorem elseBlock_sound (hstatement : SoundStmt statement) {b : Block}
    (h : elseBlock statement s = .ok b t) : DerivesStmt .otherwise s (.block b) t := by
  simp only [elseBlock, bind_ok, peek_ok, and_assoc, exists_and_left, exists_eq_left] at h
  split at h
  · next helse =>
    simp only [bind_ok, advance_ok, and_assoc, exists_and_left, exists_eq_left] at h
    exact .otherwise helse (block_sound hstatement h)
  · next helse =>
    simp only [bind_ok, freshNode_ok, pure_ok, and_assoc, exists_and_left, exists_eq_left] at h
    obtain ⟨rfl, rfl⟩ := h
    exact .missing helse

theorem ifStatement_sound (hstatement : SoundStmt statement) :
    SoundStmt (ifStatement statement) := by
  intro s stmt t h
  simp only [ifStatement, bind_ok, expect_ok, freshNode_ok, pure_ok, and_assoc, exists_and_left,
    exists_eq_left] at h
  obtain ⟨hif, condition, u, hcondition, taken, v, htaken, otherwise, w, hotherwise, rfl, rfl⟩ := h
  exact .branch hif (expression_sound _ _ _ hcondition) (block_sound hstatement htaken)
    (elseBlock_sound hstatement hotherwise)

theorem whileStatement_sound (hstatement : SoundStmt statement) :
    SoundStmt (whileStatement statement) := by
  intro s stmt t h
  simp only [whileStatement, bind_ok, expect_ok, freshNode_ok, pure_ok, and_assoc, exists_and_left,
    exists_eq_left] at h
  obtain ⟨hwhile, condition, u, hcondition, body, v, hbody, rfl, rfl⟩ := h
  exact .loop hwhile (expression_sound _ _ _ hcondition) (block_sound hstatement hbody)

end

theorem statement_sound (n : Nat) : SoundStmt (statement (σ := σ) n) := by
  induction n with
  | zero =>
    intro s stmt t h
    exact absurd h refuseFor_ok
  | succ n ih =>
    intro s stmt t h
    simp only [statement, bind_ok, peek_ok, and_assoc, exists_and_left, exists_eq_left] at h
    generalize s.token.kind = kind at h
    cases kind with
    | varKw =>
      simp only [bind_ok, pure_ok] at h
      obtain ⟨decl, t, hdecl, rfl, rfl⟩ := h
      exact .var (variableDecl_sound hdecl)
    | call => exact callStatement_sound h
    | letKw => exact assignment_sound h
    | ifKw => exact ifStatement_sound ih _ _ _ h
    | whileKw => exact whileStatement_sound ih _ _ _ h
    | returnKw => exact returnStatement_sound h
    | _ => exact absurd h refuseFor_ok

theorem extent_sound {n : Nat} (h : extent s = .ok n t) : DerivesExtent s n t := by
  simp only [extent, bind_ok, expect_ok, and_assoc, exists_and_left, exists_eq_left] at h
  obtain ⟨hopen, hint, h⟩ := h
  cases hvalue : Numeral.extent? s.advance.token.lexeme with
  | none =>
    rw [hvalue] at h
    exact absurd h throw_ok
  | some value =>
    rw [hvalue] at h
    simp only [bind_ok, expect_ok, pure_ok, and_assoc, exists_and_left, exists_eq_left] at h
    obtain ⟨hclose, rfl, rfl⟩ := h
    exact .intro hopen hint hvalue hclose

theorem arrayDecl_sound {decl : VarDecl} (h : arrayDecl s = .ok decl t) :
    DerivesArray s decl t := by
  simp only [arrayDecl, bind_ok, expect_ok, declare_ok, typeName_ok, retype_ok, freshNode_ok,
    pure_ok, and_assoc, exists_and_left, exists_eq_left, exists_const] at h
  obtain ⟨harray, hname, id, u, hdeclare, hcolon, htype, outermost, v, houtermost, inner, w, hinner,
    hend, rfl, rfl⟩ := h
  have hextents := Items.cons (extent_sound houtermost)
    (repeated_ok (R := DerivesExtent) (fun _ _ _ _ h => extent_sound h) hinner)
  exact .intro harray hname hdeclare hcolon htype (List.cons_ne_nil _ _) hextents hend

theorem parameter_sound {id : SymbolId} (h : parameter s = .ok id t) :
    Annotates .param s id t := by
  simp only [parameter, bind_ok, expect_ok, declare_ok, typeName_ok, retype_ok, pure_ok, and_assoc,
    exists_and_left, exists_eq_left, exists_const] at h
  obtain ⟨hname, _, u, hdeclare, hcolon, htype, rfl, rfl⟩ := h
  exact .intro hname hdeclare hcolon htype

theorem parameters_sound {ids : List SymbolId}
    (h : optionalList .parameter parameter s = .ok ids t) : DerivesParams s ids t := by
  simp only [optionalList, bind_ok, peek_ok, and_assoc, exists_and_left, exists_eq_left] at h
  split at h
  · simp only [commaSeparated, bind_ok, pure_ok] at h
    obtain ⟨id, t, hid, ids, _, hids, rfl, rfl⟩ := h
    refine .some (parameter_sound hid) (repeated_ok ?_ hids)
    intro s id t hcomma h
    simp only [bind_ok, advance_ok, and_assoc, exists_and_left, exists_eq_left] at h
    exact .intro (of_decide_eq_true hcomma) (parameter_sound h)
  · obtain ⟨rfl, rfl⟩ := pure_ok.1 h
    exact .none

theorem functionDef_sound {definition : FuncDef} (h : functionDef s = .ok definition t) :
    DerivesFunction s definition t := by
  simp only [functionDef, bind_ok, expect_ok, declare_ok, enterScope_ok, typeName_ok, typesOf_ok,
    retype_ok, remaining_ok, exitScope_ok, freshNode_ok, pure_ok, and_assoc, exists_and_left,
    exists_eq_left, exists_const] at h
  obtain ⟨hfunc, hname, id, u, hdeclare, hopen, params, v, hparams, hclose, hcolon, htype, body, w,
    hbody, rfl, rfl⟩ := h
  exact .intro hfunc hname hdeclare hopen (parameters_sound hparams) hclose hcolon htype
    (block_sound (statement_sound _) hbody)

theorem declaration_sound {decl : Decl} (h : declaration s = .ok decl t) :
    DerivesDecl s decl t := by
  simp only [declaration, bind_ok, peek_ok, and_assoc, exists_and_left, exists_eq_left] at h
  generalize s.token.kind = kind at h
  cases kind with
  | varKw =>
    simp only [bind_ok, pure_ok] at h
    obtain ⟨decl, t, hdecl, rfl, rfl⟩ := h
    exact .var (variableDecl_sound hdecl)
  | arrayKw =>
    simp only [bind_ok, pure_ok] at h
    obtain ⟨decl, t, hdecl, rfl, rfl⟩ := h
    exact .array (arrayDecl_sound hdecl)
  | funcKw =>
    simp only [bind_ok, pure_ok] at h
    obtain ⟨definition, t, hdefinition, rfl, rfl⟩ := h
    exact .func (functionDef_sound hdefinition)
  | _ => exact absurd h refuseFor_ok

theorem program_sound {tree : Tree} (h : program s = .ok tree t) : DerivesProgram s tree t := by
  simp only [program, bind_ok, peek_ok, expect_ok, freshNode_ok, pure_ok, and_assoc,
    exists_and_left, exists_eq_left] at h
  obtain ⟨decls, u, hdecls, heof, rfl, rfl⟩ := h
  exact .intro (repeated_ok (R := DerivesDecl) (fun _ _ _ _ h => declaration_sound h) hdecls) heof

end Parser

section

variable {σ : Type} [TokenStream σ] {stream : σ}

theorem parse_derives (h : (parse stream).tree.isError = false) :
    ∃ tree t, Parser.DerivesProgram (.start stream) tree t ∧
      parse stream = ⟨tree, t.scope.symbols, t.log, t.nodeCount⟩ := by
  cases hrun : Parser.program (.start stream) with
  | error d s =>
    rw [parse_of_error hrun] at h
    cases h
  | ok tree t => exact ⟨tree, t, Parser.program_sound hrun, parse_of_ok hrun⟩

theorem parse_error (h : (parse stream).tree.isError = true) :
    ∃ node message, (parse stream).tree = .error node message ∧
      (parse stream).nodeCount = node.id + 1 := by
  cases hrun : Parser.program (.start stream) with
  | ok tree t =>
    rw [parse_of_ok hrun] at h
    obtain ⟨_, _⟩ := Parser.program_sound hrun
    cases h
  | error d s =>
    rw [parse_of_error hrun]
    exact ⟨_, _, rfl, rfl⟩

theorem parse_isError_of_clean (h : (parse stream).log = []) :
    (parse stream).tree.isError = false := by
  cases hrun : Parser.program (.start stream) with
  | error d s =>
    rw [parse_of_error hrun] at h
    exact absurd h (List.concat_ne_nil d s.log)
  | ok tree t =>
    rw [parse_of_ok hrun]
    obtain ⟨_, _⟩ := Parser.program_sound hrun
    rfl

end

end MipsCompiler
