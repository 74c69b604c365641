import MipsCompiler.Proofs.Parsing.Lockstep

set_option autoImplicit false

/-!
# Two runs of a parser

Every parser is in lockstep with itself on another stream, and returns the same tree there with its
positions moved. `declaration_lockstep` asks for no token behind the declaration, since declarations
end in a semicolon or a brace.
-/

namespace MipsCompiler

variable {σ τ : Type} [TokenStream σ] [TokenStream τ] {C : Correspondence} {n m : Nat}
  {pre : Token → Prop}

namespace Parser

theorem operator?_eof (tier : Tier) : tier.operator? .eof = none := by
  cases tier <;> rfl

theorem ne_eof_of_operator? {tier : Tier} {kind : TokenKind} {op : BinaryOp}
    (h : tier.operator? kind = some op) : kind ≠ .eof := by
  rintro rfl
  rw [operator?_eof] at h
  nomatch h

section

variable {operand : Parser σ Expr} {operand' : Parser τ Expr}
  (hoperand : Lockstep C n m (fun _ => True) 1 0 (Expr.move C.place) operand operand')

include hoperand

theorem binary_lockstep (left : Expr) (op : BinaryOp) :
    Lockstep C n m (fun token => token.kind ≠ .eof) 1 1 (Expr.move C.place) (binary operand left op)
      (binary operand' (left.move C.place) op) := by
  refine Lockstep.advance.bind (Nat.zero_le 1) fun token => ?_
  refine hoperand.bind (Nat.le_refl 1) fun right => ?_
  exact Lockstep.freshNode.silent_bind fun node => .pure rfl

theorem chain_lockstep (tier : Tier) :
    Lockstep C n m (fun _ => True) 1 0 (Expr.move C.place) (chain tier operand)
      (chain tier operand') := by
  refine hoperand.bind (Nat.le_refl 1) fun first => ?_
  refine Lockstep.extended (operator?_eof tier) (fun left op => ?_) first
  exact (binary_lockstep hoperand left op).whenever fun _ => ne_eof_of_operator?

theorem sum_lockstep :
    Lockstep C n m (fun _ => True) 1 0 (Expr.move C.place) (sum operand) (sum operand') :=
  chain_lockstep (chain_lockstep hoperand .product) .sum

theorem comparison_lockstep :
    Lockstep C n m (fun _ => True) 1 0 (Expr.move C.place) (comparison operand)
      (comparison operand') := by
  refine (sum_lockstep hoperand).bind (Nat.le_refl 1) fun left => ?_
  refine Lockstep.peek (fun token _ => ?_) Nat.one_pos
  obtain ⟨kind, lexeme, pos⟩ := token
  simp only [Token.move]
  cases hop : Tier.comparison.operator? kind with
  | none => exact .pure rfl
  | some op =>
    have hbinary := binary_lockstep (sum_lockstep hoperand) left op
    refine (hbinary.whenever fun _ heq => ?_).relax (Nat.le_refl 1) (Nat.zero_le 1)
    exact heq ▸ ne_eof_of_operator? hop

theorem subscript_lockstep (name : Token) (base : Expr) :
    Lockstep C n m (fun token => token.kind ≠ .eof) 1 1 (Expr.move C.place)
      (subscript operand name base)
      (subscript operand' (name.move C.place) (base.move C.place)) := by
  refine Lockstep.advance.bind (Nat.zero_le 1) fun _ => ?_
  refine (comparison_lockstep hoperand).bind (Nat.le_refl 1) fun offset => ?_
  refine .expect_bind (by decide) (by decide) fun _ => ?_
  exact Lockstep.freshNode.silent_bind fun node => .pure rfl

end

/-! ## Operands -/

section

variable {operand : Parser σ Expr} {operand' : Parser τ Expr}
  (hoperand : Lockstep C (n - 1) (m - 1) (fun _ => True) 1 0 (Expr.move C.place) operand operand')

include hoperand

theorem designator_lockstep :
    Lockstep C n m pre 1 1 (Expr.move C.place) (designator operand) (designator operand') := by
  refine (Lockstep.expect (by decide)).bind_next (Nat.zero_le 1) fun name => ?_
  refine Lockstep.resolve.silent_bind fun symbol => ?_
  refine Lockstep.freshNode.silent_bind fun node => ?_
  refine Lockstep.extended rfl (fun base _ => ?_) (Expr.address node symbol)
  refine (subscript_lockstep hoperand name base).whenever fun token hchoice heof => ?_
  rw [heof] at hchoice
  nomatch hchoice

theorem callParts_lockstep :
    Lockstep C n m pre 0 1
      (fun parts => (parts.1.move C.place, parts.2.1, parts.2.2.map (Expr.move C.place)))
      (callParts operand) (callParts operand') := by
  refine (Lockstep.expect (by decide)).bind_next (Nat.zero_le 1) fun token => ?_
  refine .expect_bind (by decide) (by decide) fun name => ?_
  refine Lockstep.resolve.silent_bind fun callee => ?_
  refine .expect_bind (by decide) (by decide) fun _ => ?_
  refine (Lockstep.optionalList (comparison_lockstep hoperand)).bind (Nat.le_refl 1) fun args => ?_
  refine .expect_bind (by decide) (by decide) fun _ => ?_
  exact Lockstep.freshNode.silent_bind fun node => .pure rfl

theorem negation_lockstep :
    Lockstep C n m (fun token => token.kind ≠ .eof) 1 1 (Expr.move C.place) (negation operand)
      (negation operand') := by
  refine Lockstep.advance.bind_next (Nat.zero_le 1) fun token => ?_
  refine hoperand.bind (Nat.le_refl 1) fun inner => ?_
  exact Lockstep.freshNode.silent_bind fun node => .pure rfl

theorem parenthesized_lockstep :
    Lockstep C n m (fun token => token.kind ≠ .eof) 1 1 (Expr.move C.place) (parenthesized operand)
      (parenthesized operand') := by
  refine Lockstep.advance.bind_next (Nat.zero_le 1) fun _ => ?_
  refine (comparison_lockstep hoperand).bind (Nat.le_refl 1) fun inner => ?_
  exact .expect_bind (by decide) (by decide) fun _ => .pure rfl

theorem load_lockstep :
    Lockstep C n m pre 1 1 (Expr.move C.place) (load operand) (load operand') := by
  refine Lockstep.peek (fun token _ => ?_) Nat.two_pos
  refine (designator_lockstep hoperand).bind (Nat.le_refl 1) fun base => ?_
  exact Lockstep.freshNode.silent_bind fun node => .pure rfl

theorem callExpression_lockstep :
    Lockstep C n m pre 1 1 (Expr.move C.place) (callExpression operand)
      (callExpression operand') := by
  refine (callParts_lockstep hoperand).bind (Nat.zero_le 1) fun (node, callee, args) => ?_
  exact .pure (by rw [Expr.move, Expr.moveAll_eq_map])

end

theorem literalValue_lockstep (token : Token) :
    Lockstep (σ := σ) (τ := τ) C n m pre 1 0 id (literalValue token)
      (literalValue (token.move C.place)) := by
  obtain ⟨kind, lexeme, pos⟩ := token
  simp only [literalValue, Token.move]
  split
  · exact .pure rfl
  · split
    · exact .pure rfl
    · exact .throw rfl
  · exact .pure rfl
  · exact .pure rfl

theorem literal_lockstep :
    Lockstep (σ := σ) (τ := τ) C n m (fun token => token.kind ≠ .eof) 1 1 (Expr.move C.place) literal
      literal := by
  refine Lockstep.advance.bind (Nat.zero_le 1) fun token => ?_
  refine (literalValue_lockstep token).bind (Nat.le_refl 1) fun value => ?_
  exact Lockstep.freshNode.silent_bind fun node => .pure rfl

theorem operand_eof (r : Nat) (t : ParseState τ) (h : t.token.kind = .eof) :
    operand r t = operand 0 t := by
  cases r with
  | zero => rfl
  | succ r =>
    simp only [operand, peek_bind, h]
    rfl

theorem operand_lockstep (r r' : Nat) :
    Lockstep (σ := σ) (τ := τ) C r r' (fun _ => True) 1 0 (Expr.move C.place) (operand r)
      (operand r') := by
  refine Lockstep.counted (p := fun _ : Unit => operand) (q := fun _ : Unit => operand)
    (fun _ => operand_eof) (fun _ m => .refuse) ?_ r r' (Nat.le_refl r) (Nat.le_refl r') ()
  intro r r' m _ _ ih _
  refine Lockstep.peek (fun token _ => ?_) Nat.one_pos
  obtain ⟨kind, lexeme, pos⟩ := token
  simp only [Token.move]
  refine Lockstep.relax (l := 1) ?_ (Nat.le_refl 1) (Nat.zero_le 1)
  split
  · exact (negation_lockstep (ih ())).whenever fun _ heq => by simp [heq]
  · exact (parenthesized_lockstep (ih ())).whenever fun _ heq => by simp [heq]
  · exact load_lockstep (ih ())
  · exact callExpression_lockstep (ih ())
  · split
    · next hstart =>
      refine literal_lockstep.whenever ?_
      rintro _ rfl rfl
      exact absurd hstart (by decide)
    · exact .refuse

theorem expression_lockstep :
    Lockstep (σ := σ) (τ := τ) C n m pre 1 0 (Expr.move C.place) expression expression :=
  Lockstep.remaining fun r r' _ _ =>
    (comparison_lockstep (operand_lockstep r r')).whenever fun _ _ => trivial

/-! ## Statements -/

theorem typeName_lockstep :
    Lockstep (σ := σ) (τ := τ) C n m pre 0 1 id typeName typeName :=
  .expect_bind (by decide) (by decide) fun _ => .pure rfl

theorem variableDecl_lockstep :
    Lockstep (σ := σ) (τ := τ) C n m pre 0 1 (VarDecl.move C.place) variableDecl variableDecl := by
  refine .expect_bind (by decide) (by decide) fun token => ?_
  refine .expect_bind (by decide) (by decide) fun name => ?_
  refine Lockstep.declare.silent_bind fun symbol => ?_
  refine .expect_bind (by decide) (by decide) fun _ => ?_
  refine (typeName_lockstep.relax (Nat.le_refl 0) (Nat.zero_le 1)).bind (Nat.zero_le 1) fun ty => ?_
  refine Lockstep.retype.silent_bind fun _ => ?_
  refine .expect_bind (by decide) (by decide) fun _ => ?_
  exact Lockstep.freshNode.silent_bind fun node => .pure rfl

theorem callStatement_lockstep :
    Lockstep (σ := σ) (τ := τ) C n m pre 1 1 (Stmt.move C.place) callStatement callStatement := by
  refine .remaining fun r r' _ _ => ?_
  have hoperand := (operand_lockstep (σ := σ) (τ := τ) (C := C) r r').within (Nat.sub_le r 1)
    (Nat.sub_le r' 1)
  refine (callParts_lockstep hoperand).bind (Nat.zero_le 1) fun (node, callee, args) => ?_
  refine .expect_bind (by decide) (by decide) fun _ => ?_
  exact .pure (by rw [Stmt.move, Expr.moveAll_eq_map])

theorem assignment_lockstep :
    Lockstep (σ := σ) (τ := τ) C n m pre 1 1 (Stmt.move C.place) assignment assignment := by
  refine .expect_bind (by decide) (by decide) fun token => ?_
  refine .remaining fun r r' _ _ => ?_
  have hoperand := (operand_lockstep (σ := σ) (τ := τ) (C := C) r r').within (Nat.sub_le r 1)
    (Nat.sub_le r' 1)
  refine ((designator_lockstep hoperand).relax (Nat.le_refl 1) (Nat.zero_le 1)).bind (Nat.le_refl 1)
    fun target => ?_
  refine .expect_bind (by decide) (by decide) fun _ => ?_
  refine expression_lockstep.bind (Nat.le_refl 1) fun source => ?_
  refine .expect_bind (by decide) (by decide) fun _ => ?_
  exact Lockstep.freshNode.silent_bind fun node => .pure rfl

theorem returnStatement_lockstep :
    Lockstep (σ := σ) (τ := τ) C n m pre 1 1 (Stmt.move C.place) returnStatement
      returnStatement := by
  refine .expect_bind (by decide) (by decide) fun token => ?_
  refine expression_lockstep.bind (Nat.le_refl 1) fun value => ?_
  refine .expect_bind (by decide) (by decide) fun _ => ?_
  exact Lockstep.freshNode.silent_bind fun node => .pure rfl

section

variable {statement : Parser σ Stmt} {statement' : Parser τ Stmt}
  (hstatement : Lockstep C n m (fun _ => True) 1 1 (Stmt.move C.place) statement statement')

include hstatement

theorem block_lockstep (ownScope : Bool) :
    Lockstep C n m pre 0 1 (Block.move C.place) (block ownScope statement)
      (block ownScope statement') := by
  refine .expect_bind (by decide) (by decide) fun token => ?_
  have hstmts : Lockstep C n m (fun _ => True) 1 0 (List.map (Stmt.move C.place))
      (repeated Nonterminal.statement.starts statement)
      (repeated Nonterminal.statement.starts statement') :=
    Lockstep.repeated rfl (hstatement.whenever fun _ _ => trivial)
  have hclose (stmts : List Stmt) : Lockstep C n m (fun _ => True) 0 1 (Block.move C.place)
      (do
        let _ ← expect .closeBrace
        let node ← freshNode token.pos
        return .mk node stmts : Parser σ Block)
      (do
        let _ ← expect .closeBrace
        let node ← freshNode (token.move C.place).pos
        return .mk node (stmts.map (Stmt.move C.place)) : Parser τ Block) := by
    refine .expect_bind (by decide) (by decide) fun _ => ?_
    refine Lockstep.freshNode.silent_bind fun node => .pure ?_
    rw [Block.move, Stmt.moveAll_eq_map]
  cases ownScope with
  | false => exact hstmts.bind (Nat.le_refl 1) hclose
  | true =>
    refine Lockstep.enterScope.silent_bind fun _ => hstmts.bind (Nat.le_refl 1) fun stmts => ?_
    exact Lockstep.exitScope.silent_bind fun _ => hclose stmts

theorem elseBlock_lockstep :
    Lockstep C n m pre 1 0 (Block.move C.place) (elseBlock statement) (elseBlock statement') := by
  refine .peek (fun token _ => ?_) Nat.one_pos
  change Lockstep C n m _ 1 0 _ (if token.kind = .elseKw then _ else _)
    (if token.kind = .elseKw then _ else _)
  split
  · next hkind =>
    have helse : Lockstep (σ := σ) (τ := τ) C n m (fun next => next = token) 0 1
        (Token.move C.place) advance advance :=
      Lockstep.advance.whenever fun _ heq => by rw [heq, hkind]; decide
    refine (helse.bind (Nat.zero_le 1) fun _ => ?_).relax (Nat.le_refl 1) (Nat.zero_le 1)
    exact (block_lockstep hstatement true).relax (Nat.zero_le 1) (Nat.zero_le 1)
  · exact Lockstep.freshNode.silent_bind fun node => .pure rfl

end

section

variable {statement : Parser σ Stmt} {statement' : Parser τ Stmt}
  (hstatement : Lockstep C (n - 1) (m - 1) (fun _ => True) 1 1 (Stmt.move C.place) statement
    statement')

include hstatement

theorem ifStatement_lockstep :
    Lockstep C n m pre 1 1 (Stmt.move C.place) (ifStatement statement) (ifStatement statement') := by
  refine (Lockstep.expect (by decide)).bind_next (Nat.zero_le 1) fun token => ?_
  refine expression_lockstep.bind (Nat.le_refl 1) fun condition => ?_
  refine ((block_lockstep hstatement true).relax (Nat.le_refl 0) (Nat.zero_le 1)).bind
    (Nat.zero_le 1) fun taken => ?_
  refine (elseBlock_lockstep hstatement).bind (Nat.le_refl 1) fun otherwise => ?_
  exact Lockstep.freshNode.silent_bind fun node => .pure rfl

theorem whileStatement_lockstep :
    Lockstep C n m pre 1 1 (Stmt.move C.place) (whileStatement statement)
      (whileStatement statement') := by
  refine (Lockstep.expect (by decide)).bind_next (Nat.zero_le 1) fun token => ?_
  refine expression_lockstep.bind (Nat.le_refl 1) fun condition => ?_
  refine ((block_lockstep hstatement true).relax (Nat.le_refl 0) (Nat.zero_le 1)).bind
    (Nat.zero_le 1) fun body => ?_
  exact Lockstep.freshNode.silent_bind fun node => .pure rfl

end

theorem statement_eof (r : Nat) (t : ParseState τ) (h : t.token.kind = .eof) :
    statement r t = statement 0 t := by
  cases r with
  | zero => rfl
  | succ r =>
    simp only [statement, peek_bind, h]

theorem statement_lockstep (r r' : Nat) :
    Lockstep (σ := σ) (τ := τ) C r r' (fun _ => True) 1 1 (Stmt.move C.place) (statement r)
      (statement r') := by
  refine Lockstep.counted (p := fun _ : Unit => statement) (q := fun _ : Unit => statement)
    (fun _ => statement_eof) (fun _ m => .refuse) ?_ r r' (Nat.le_refl r) (Nat.le_refl r') ()
  intro r r' m _ _ ih _
  refine Lockstep.peek (fun token _ => ?_) Nat.two_pos
  obtain ⟨kind, lexeme, pos⟩ := token
  simp only [Token.move]
  split
  · exact variableDecl_lockstep.bind (Nat.zero_le 1) fun decl => .pure rfl
  · exact callStatement_lockstep
  · exact assignment_lockstep
  · exact ifStatement_lockstep (ih ())
  · exact whileStatement_lockstep (ih ())
  · exact returnStatement_lockstep
  · exact .refuse

/-! ## Declarations -/

theorem extent_lockstep : Lockstep (σ := σ) (τ := τ) C n m pre 0 1 id extent extent := by
  refine .expect_bind (by decide) (by decide) fun _ => ?_
  refine .expect_bind (by decide) (by decide) fun literal => ?_
  obtain ⟨kind, lexeme, pos⟩ := literal
  simp only [Token.move]
  split
  · exact .throw rfl
  · exact .expect_bind (by decide) (by decide) fun _ => .pure rfl

theorem arrayDecl_lockstep :
    Lockstep (σ := σ) (τ := τ) C n m pre 0 1 (VarDecl.move C.place) arrayDecl arrayDecl := by
  refine .expect_bind (by decide) (by decide) fun token => ?_
  refine .expect_bind (by decide) (by decide) fun name => ?_
  refine Lockstep.declare.silent_bind fun symbol => ?_
  refine .expect_bind (by decide) (by decide) fun _ => ?_
  refine (typeName_lockstep.relax (Nat.le_refl 0) (Nat.zero_le 1)).bind (Nat.zero_le 1) fun base => ?_
  refine (extent_lockstep.relax (Nat.le_refl 0) (Nat.zero_le 1)).bind (Nat.zero_le 1)
    fun outermost => ?_
  have hextent : Lockstep (σ := σ) (τ := τ) C n m (fun token => decide (token.kind = .openBracket))
      1 1 id extent extent := extent_lockstep.relax (Nat.zero_le 1) (Nat.le_refl 1)
  refine (Lockstep.repeated rfl hextent).bind (Nat.le_refl 1) fun inner => ?_
  refine .expect_bind (by decide) (by decide) fun _ => ?_
  rw [List.map_id]
  refine Lockstep.retype.silent_bind fun _ => ?_
  exact Lockstep.freshNode.silent_bind fun node => .pure rfl

theorem parameter_lockstep : Lockstep (σ := σ) (τ := τ) C n m pre 0 1 id parameter parameter := by
  refine .expect_bind (by decide) (by decide) fun name => ?_
  refine Lockstep.declare.silent_bind fun symbol => ?_
  refine .expect_bind (by decide) (by decide) fun _ => ?_
  refine (typeName_lockstep.relax (Nat.le_refl 0) (Nat.zero_le 1)).bind (Nat.zero_le 1) fun ty => ?_
  exact Lockstep.retype.silent_bind fun _ => .pure rfl

theorem functionDef_lockstep :
    Lockstep (σ := σ) (τ := τ) C n m pre 0 1 (FuncDef.move C.place) functionDef functionDef := by
  refine .expect_bind (by decide) (by decide) fun token => ?_
  refine .expect_bind (by decide) (by decide) fun name => ?_
  refine Lockstep.declare.silent_bind fun symbol => ?_
  refine .expect_bind (by decide) (by decide) fun _ => ?_
  refine Lockstep.enterScope.silent_bind fun _ => ?_
  have hparam : Lockstep (σ := σ) (τ := τ) C n m (fun _ => True) 1 0 id parameter parameter :=
    parameter_lockstep.relax (Nat.zero_le 1) (Nat.zero_le 1)
  refine (Lockstep.optionalList hparam).bind (Nat.le_refl 1) fun params => ?_
  rw [List.map_id]
  refine .expect_bind (by decide) (by decide) fun _ => ?_
  refine .expect_bind (by decide) (by decide) fun _ => ?_
  refine (typeName_lockstep.relax (Nat.le_refl 0) (Nat.zero_le 1)).bind (Nat.zero_le 1)
    fun result => ?_
  refine Lockstep.retypeFunction fun _ => ?_
  refine .remaining fun r r' _ _ => ?_
  refine ((block_lockstep (statement_lockstep r r') false).relax (Nat.le_refl 0)
    (Nat.zero_le 1)).bind (Nat.zero_le 1) fun body => ?_
  refine Lockstep.exitScope.silent_bind fun _ => ?_
  exact Lockstep.freshNode.silent_bind fun node => .pure rfl

theorem declaration_lockstep :
    Lockstep (σ := σ) (τ := τ) C n m pre 0 1 (Decl.move C.place) declaration declaration := by
  refine Lockstep.peek (fun token _ => ?_) Nat.one_pos
  obtain ⟨kind, lexeme, pos⟩ := token
  simp only [Token.move]
  split
  · exact variableDecl_lockstep.bind (Nat.zero_le 1) fun decl => .pure rfl
  · exact arrayDecl_lockstep.bind (Nat.zero_le 1) fun decl => .pure rfl
  · exact functionDef_lockstep.bind (Nat.zero_le 1) fun definition => .pure rfl
  · exact .refuse

/-! ## Programs -/

open ParseState (Level)

theorem declarations_lockstep (s : ParseState σ) (t : ParseState τ) :
    Lockstep (σ := σ) (τ := τ) C (TokenStream.remaining s.stream) (TokenStream.remaining t.stream)
      (fun _ => True) 1 0 (List.map (Decl.move C.place))
      (repeated Nonterminal.declaration.starts declaration)
      (repeated Nonterminal.declaration.starts declaration) :=
  Lockstep.repeated rfl (declaration_lockstep.relax (Nat.zero_le 1) (Nat.le_refl 1))

theorem program_ok {s t : ParseState σ} {tree : Tree} :
    program s = .ok tree t ↔
      ∃ decls u, repeated Nonterminal.declaration.starts declaration s = .ok decls u ∧
        u.token.kind = .eof ∧ tree = .program (u.node s.token.pos) decls ∧
        t = u.advance.numbered := by
  simp only [program, bind_ok, peek_ok, expect_ok, freshNode_ok, pure_ok, and_assoc,
    exists_and_left, exists_eq_left]
  rfl

theorem expect_error {kind : TokenKind} {s t : ParseState σ} {d : Diagnostic} :
    expect kind s = .error d t ↔
      s.token.kind ≠ kind ∧ d = .unexpected s.token.pos kind.name s.token.kind.name ∧ t = s := by
  change (if s.token.kind = kind then advance else refuse kind.name) s = .error d t ↔ _
  split
  · next heq => exact iff_of_false (fun h => nomatch h) fun h => h.1 heq
  · next hne =>
    change EStateM.Result.error (Diagnostic.unexpected s.token.pos kind.name s.token.kind.name) s =
      .error d t ↔ _
    simp [hne, eq_comm]

theorem program_error {s t : ParseState σ} {d : Diagnostic} :
    program s = .error d t ↔
      repeated Nonterminal.declaration.starts declaration s = .error d t ∨
      ∃ decls, repeated Nonterminal.declaration.starts declaration s = .ok decls t ∧
        t.token.kind ≠ .eof ∧
        d = .unexpected t.token.pos TokenKind.eof.name t.token.kind.name := by
  change (repeated Nonterminal.declaration.starts declaration >>= fun decls =>
    expect .eof >>= fun _ => _) s = .error d t ↔ _
  rw [bind_error]
  refine or_congr Iff.rfl ⟨?_, ?_⟩
  · rintro ⟨decls, u, hdecls, hrest⟩
    rcases bind_error.1 hrest with hend | ⟨_, _, _, hrest⟩
    · obtain ⟨hkind, hd, rfl⟩ := expect_error.1 hend
      exact ⟨decls, hdecls, hkind, hd⟩
    · nomatch hrest
  · rintro ⟨decls, hdecls, hkind, hd⟩
    exact ⟨decls, t, hdecls, bind_error.2 (.inl (expect_error.2 ⟨hkind, hd, rfl⟩))⟩

section

variable {s s' : ParseState σ} {t : ParseState τ} (h : ∀ k, ParseState.Alike C k s t)

include h

/-- The program of a stream is read from every stream that shows the same tokens. -/
theorem program_ok_level {tree : Tree} (hrun : program s = .ok tree s') :
    ∃ t', program t = .ok (tree.move C.place) t' ∧ Level C s' t' := by
  obtain ⟨decls, u, hdecls, hend, rfl, rfl⟩ := program_ok.1 hrun
  obtain ⟨len, _, _, hmatch⟩ := (declarations_lockstep s t).ok (Nat.le_refl _) trivial hdecls
  obtain ⟨v, hother, _, halike⟩ := hmatch (Nat.le_refl _) (Nat.le_refl 1) (h _)
  have hlevel := halike.level
  have hend' : v.token.kind = .eof := (halike.kind_eq Nat.one_pos).trans hend
  have hnode : v.node t.token.pos = (u.node s.token.pos).move C.place := by
    rw [(h 1).token_eq Nat.one_pos]
    exact congrArg (fun id => Node.mk id (C.place s.token.pos)) hlevel.nodeCount
  refine ⟨v.advance.numbered, program_ok.2 ⟨_, v, hother, hend', ?_, rfl⟩,
    congrArg (· + 1) hlevel.nodeCount, hlevel.names⟩
  rw [hnode]
  rfl

theorem program_error_level {d : Diagnostic} (hrun : program s = .error d s') :
    ∃ t', program t = .error (d.move C.place) t' ∧ Level C s' t' := by
  rcases program_error.1 hrun with hdecls | ⟨decls, hdecls, hkind, rfl⟩
  · obtain ⟨len, _, hmatch⟩ := (declarations_lockstep s t).error (Nat.le_refl _) trivial hdecls
    obtain ⟨v, hother, hlevel⟩ := hmatch (Nat.le_refl _) Nat.one_pos (h _)
    exact ⟨v, program_error.2 (.inl hother), hlevel⟩
  · obtain ⟨len, _, _, hmatch⟩ := (declarations_lockstep s t).ok (Nat.le_refl _) trivial hdecls
    obtain ⟨v, hother, _, halike⟩ := hmatch (Nat.le_refl _) (Nat.le_refl 1) (h _)
    refine ⟨v, program_error.2 (.inr ⟨_, hother, ?_, ?_⟩), halike.level⟩
    · rw [halike.kind_eq Nat.one_pos]
      exact hkind
    · rw [halike.token_eq Nat.one_pos]
      rfl

end

end Parser

end MipsCompiler
