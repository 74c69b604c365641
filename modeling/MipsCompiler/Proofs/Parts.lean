import MipsCompiler.Lowering.Storage

set_option autoImplicit false

/-!
# Parts of trees

The expressions and statements inside a tree, the symbols that they mention, and the shape that a
parser gives them: an expression is a place, which has an address, or a value, and each stands where
the grammar asks for it.
-/

namespace MipsCompiler

namespace Expr

mutual

def mentions : Expr → List SymbolId
  | .literal _ _ => []
  | .address _ symbol => [symbol]
  | .deref _ operand => operand.mentions
  | .index _ base offset => base.mentions ++ offset.mentions
  | .binary _ _ left right => left.mentions ++ right.mentions
  | .not _ operand => operand.mentions
  | .call _ callee args => callee :: mentionsAll args

def mentionsAll : List Expr → List SymbolId
  | [] => []
  | e :: es => e.mentions ++ mentionsAll es

end

mutual

/-- A name with offsets behind it. -/
def isPlace : Expr → Bool
  | .address _ _ => true
  | .index _ base offset => base.isPlace && offset.isValue
  | _ => false

/-- An expression in which places are loaded from or indexed. -/
def isValue : Expr → Bool
  | .literal _ _ => true
  | .deref _ operand => operand.isPlace
  | .binary _ _ left right => left.isValue && right.isValue
  | .not _ operand => operand.isValue
  | .call _ _ args => areValues args
  | _ => false

def areValues : List Expr → Bool
  | [] => true
  | e :: es => e.isValue && areValues es

end

mutual

def subexprs : Expr → List Expr
  | .literal node value => [.literal node value]
  | .address node symbol => [.address node symbol]
  | .deref node operand => .deref node operand :: operand.subexprs
  | .index node base offset => .index node base offset :: (base.subexprs ++ offset.subexprs)
  | .binary node op left right => .binary node op left right :: (left.subexprs ++ right.subexprs)
  | .not node operand => .not node operand :: operand.subexprs
  | .call node callee args => .call node callee args :: subexprsAll args

def subexprsAll : List Expr → List Expr
  | [] => []
  | e :: es => e.subexprs ++ subexprsAll es

end

mutual

def callees : Expr → List SymbolId
  | .literal _ _ => []
  | .address _ _ => []
  | .deref _ operand => operand.callees
  | .index _ base offset => base.callees ++ offset.callees
  | .binary _ _ left right => left.callees ++ right.callees
  | .not _ operand => operand.callees
  | .call _ callee args => calleesAll args ++ [callee]

def calleesAll : List Expr → List SymbolId
  | [] => []
  | e :: es => e.callees ++ calleesAll es

end

def argCount : Expr → Nat
  | .call _ _ args => args.length
  | _ => 0

theorem self_mem_subexprs (e : Expr) : e ∈ e.subexprs := by
  cases e <;> exact List.mem_cons_self

theorem mem_subexprsAll {e : Expr} {es : List Expr} (h : e ∈ es) : e ∈ subexprsAll es := by
  induction h with
  | head => exact List.mem_append_left _ e.self_mem_subexprs
  | tail _ _ ih => exact List.mem_append_right _ ih

end Expr

mutual

def Stmt.mentions : Stmt → List SymbolId
  | .var _ => []
  | .call _ callee args => callee :: Expr.mentionsAll args
  | .assign _ target source => target.mentions ++ source.mentions
  | .branch _ condition thenBlock elseBlock =>
    condition.mentions ++ thenBlock.mentions ++ elseBlock.mentions
  | .loop _ condition body => condition.mentions ++ body.mentions
  | .ret _ value => value.mentions

def Block.mentions : Block → List SymbolId
  | .mk _ stmts => Stmt.mentionsAll stmts

def Stmt.mentionsAll : List Stmt → List SymbolId
  | [] => []
  | s :: ss => s.mentions ++ Stmt.mentionsAll ss

end

mutual

def Stmt.callees : Stmt → List SymbolId
  | .var _ => []
  | .call node callee args => (Expr.call node callee args).callees
  | .assign _ target source => target.callees ++ source.callees
  | .branch _ condition thenBlock elseBlock =>
    condition.callees ++ thenBlock.callees ++ elseBlock.callees
  | .loop _ condition body => condition.callees ++ body.callees
  | .ret _ value => value.callees

def Block.callees : Block → List SymbolId
  | .mk _ stmts => Stmt.calleesAll stmts

def Stmt.calleesAll : List Stmt → List SymbolId
  | [] => []
  | s :: ss => s.callees ++ Stmt.calleesAll ss

end

mutual

/-- Values are stored at places, and all else that a statement computes is a value. -/
def Stmt.isFormed : Stmt → Bool
  | .var _ => true
  | .call _ _ args => Expr.areValues args
  | .assign _ target source => target.isPlace && source.isValue
  | .branch _ condition thenBlock elseBlock =>
    condition.isValue && thenBlock.isFormed && elseBlock.isFormed
  | .loop _ condition body => condition.isValue && body.isFormed
  | .ret _ value => value.isValue

def Block.isFormed : Block → Bool
  | .mk _ stmts => Stmt.areFormed stmts

def Stmt.areFormed : List Stmt → Bool
  | [] => true
  | s :: ss => s.isFormed && Stmt.areFormed ss

end

mutual

/-- All expressions inside a statement. A call made as a statement is one of them. -/
def Stmt.exprs : Stmt → List Expr
  | .var _ => []
  | .call node callee args => (Expr.call node callee args).subexprs
  | .assign _ target source => target.subexprs ++ source.subexprs
  | .branch _ condition thenBlock elseBlock =>
    condition.subexprs ++ thenBlock.exprs ++ elseBlock.exprs
  | .loop _ condition body => condition.subexprs ++ body.exprs
  | .ret _ value => value.subexprs

def Block.exprs : Block → List Expr
  | .mk _ stmts => Stmt.exprsAll stmts

def Stmt.exprsAll : List Stmt → List Expr
  | [] => []
  | s :: ss => s.exprs ++ Stmt.exprsAll ss

end

mutual

def Stmt.substmts : Stmt → List Stmt
  | .branch node condition thenBlock elseBlock =>
    .branch node condition thenBlock elseBlock :: (thenBlock.substmts ++ elseBlock.substmts)
  | .loop node condition body => .loop node condition body :: body.substmts
  | .var decl => [.var decl]
  | .call node callee args => [.call node callee args]
  | .assign node target source => [.assign node target source]
  | .ret node value => [.ret node value]

def Block.substmts : Block → List Stmt
  | .mk _ stmts => Stmt.substmtsAll stmts

def Stmt.substmtsAll : List Stmt → List Stmt
  | [] => []
  | s :: ss => s.substmts ++ Stmt.substmtsAll ss

end

theorem Stmt.self_mem_substmts (s : Stmt) : s ∈ s.substmts := by
  cases s <;> exact List.mem_cons_self

inductive Phrase where
  | expr (e : Expr)
  | args (es : List Expr)

namespace Phrase

/-- Induction over expressions and lists of them at once. -/
@[elab_as_elim]
theorem induct {P : Phrase → Prop} (literal : ∀ node value, P (.expr (.literal node value)))
    (address : ∀ node symbol, P (.expr (.address node symbol)))
    (deref : ∀ node operand, P (.expr operand) → P (.expr (.deref node operand)))
    (index : ∀ node base offset, P (.expr base) → P (.expr offset) →
      P (.expr (.index node base offset)))
    (binary : ∀ node op left right, P (.expr left) → P (.expr right) →
      P (.expr (.binary node op left right)))
    (not : ∀ node operand, P (.expr operand) → P (.expr (.not node operand)))
    (call : ∀ node callee args, P (.args args) → P (.expr (.call node callee args)))
    (nil : P (.args []))
    (cons : ∀ e es, P (.expr e) → P (.args es) → P (.args (e :: es))) (phrase : Phrase) :
    P phrase := by
  cases phrase with
  | expr e =>
    exact @Expr.rec (fun e => P (.expr e)) (fun es => P (.args es)) literal address deref index
      binary not call nil cons e
  | args es =>
    exact @Expr.rec_1 (fun e => P (.expr e)) (fun es => P (.args es)) literal address deref index
      binary not call nil cons es

def mentions : Phrase → List SymbolId
  | .expr e => e.mentions
  | .args es => Expr.mentionsAll es

def subexprs : Phrase → List Expr
  | .expr e => e.subexprs
  | .args es => Expr.subexprsAll es

def callees : Phrase → List SymbolId
  | .expr e => e.callees
  | .args es => Expr.calleesAll es

theorem exists_call {id : SymbolId} (phrase : Phrase) (h : id ∈ phrase.callees) :
    ∃ node args, .call node id args ∈ phrase.subexprs := by
  induction phrase using Phrase.induct with
  | literal | address | nil => exact absurd h List.not_mem_nil
  | deref node operand ih | not node operand ih =>
    obtain ⟨n, args, hcall⟩ := ih h
    exact ⟨n, args, List.mem_cons_of_mem _ hcall⟩
  | index node left right ihleft ihright | binary node op left right ihleft ihright =>
    rcases List.mem_append.1 h with h | h
    · obtain ⟨n, args, hcall⟩ := ihleft h
      exact ⟨n, args, List.mem_cons_of_mem _ (List.mem_append_left _ hcall)⟩
    · obtain ⟨n, args, hcall⟩ := ihright h
      exact ⟨n, args, List.mem_cons_of_mem _ (List.mem_append_right _ hcall)⟩
  | call node callee args ih =>
    rcases List.mem_append.1 h with h | h
    · obtain ⟨n, args', hcall⟩ := ih h
      exact ⟨n, args', List.mem_cons_of_mem _ hcall⟩
    · exact ⟨node, args, List.mem_singleton.1 h ▸ List.mem_cons_self⟩
  | cons e es ih ihs =>
    rcases List.mem_append.1 h with h | h
    · obtain ⟨n, args, hcall⟩ := ih h
      exact ⟨n, args, List.mem_append_left _ hcall⟩
    · obtain ⟨n, args, hcall⟩ := ihs h
      exact ⟨n, args, List.mem_append_right _ hcall⟩

theorem subexprs_subset {e : Expr} (phrase : Phrase) (h : e ∈ phrase.subexprs) :
    e.subexprs ⊆ phrase.subexprs := by
  induction phrase using Phrase.induct with
  | literal | address =>
    cases List.mem_singleton.1 h
    exact List.Subset.refl _
  | deref node operand ih | not node operand ih | call node callee args ih =>
    rcases List.mem_cons.1 h with rfl | h
    · exact List.Subset.refl _
    · exact List.subset_cons_of_subset _ (ih h)
  | index node left right ihleft ihright | binary node op left right ihleft ihright =>
    rcases List.mem_cons.1 h with rfl | h
    · exact List.Subset.refl _
    · refine List.subset_cons_of_subset _ ?_
      rcases List.mem_append.1 h with h | h
      · exact List.subset_append_of_subset_left _ (ihleft h)
      · exact List.subset_append_of_subset_right _ (ihright h)
  | nil => exact absurd h List.not_mem_nil
  | cons e es ih ihs =>
    rcases List.mem_append.1 h with h | h
    · exact List.subset_append_of_subset_left _ (ih h)
    · exact List.subset_append_of_subset_right _ (ihs h)

end Phrase

inductive StmtPhrase where
  | stmt (s : Stmt)
  | stmts (ss : List Stmt)
  | block (b : Block)

namespace StmtPhrase

@[elab_as_elim]
theorem induct {P : StmtPhrase → Prop} (var : ∀ decl, P (.stmt (.var decl)))
    (call : ∀ node callee args, P (.stmt (.call node callee args)))
    (assign : ∀ node target source, P (.stmt (.assign node target source)))
    (branch : ∀ node condition thenBlock elseBlock, P (.block thenBlock) → P (.block elseBlock) →
      P (.stmt (.branch node condition thenBlock elseBlock)))
    (loop : ∀ node condition body, P (.block body) → P (.stmt (.loop node condition body)))
    (ret : ∀ node value, P (.stmt (.ret node value)))
    (block : ∀ node stmts, P (.stmts stmts) → P (.block (.mk node stmts))) (nil : P (.stmts []))
    (cons : ∀ s ss, P (.stmt s) → P (.stmts ss) → P (.stmts (s :: ss))) (phrase : StmtPhrase) :
    P phrase := by
  cases phrase with
  | stmt s =>
    exact @Stmt.rec (fun s => P (.stmt s)) (fun b => P (.block b)) (fun ss => P (.stmts ss)) var
      call assign branch loop ret block nil cons s
  | stmts ss =>
    exact @Stmt.rec_1 (fun s => P (.stmt s)) (fun b => P (.block b)) (fun ss => P (.stmts ss)) var
      call assign branch loop ret block nil cons ss
  | block b =>
    exact @Block.rec (fun s => P (.stmt s)) (fun b => P (.block b)) (fun ss => P (.stmts ss)) var
      call assign branch loop ret block nil cons b

def mentions : StmtPhrase → List SymbolId
  | .stmt s => s.mentions
  | .stmts ss => Stmt.mentionsAll ss
  | .block b => b.mentions

def isFormed : StmtPhrase → Bool
  | .stmt s => s.isFormed
  | .stmts ss => Stmt.areFormed ss
  | .block b => b.isFormed

def locals : StmtPhrase → List SymbolId
  | .stmt s => s.locals.map VarDecl.symbol
  | .stmts ss => (Stmt.localsAll ss).map VarDecl.symbol
  | .block b => b.locals.map VarDecl.symbol

def exprs : StmtPhrase → List Expr
  | .stmt s => s.exprs
  | .stmts ss => Stmt.exprsAll ss
  | .block b => b.exprs

def substmts : StmtPhrase → List Stmt
  | .stmt s => s.substmts
  | .stmts ss => Stmt.substmtsAll ss
  | .block b => b.substmts

def callees : StmtPhrase → List SymbolId
  | .stmt s => s.callees
  | .stmts ss => Stmt.calleesAll ss
  | .block b => b.callees

theorem exists_call {id : SymbolId} (phrase : StmtPhrase) (h : id ∈ phrase.callees) :
    ∃ node args, .call node id args ∈ phrase.exprs := by
  have hexpr (e : Expr) (h : id ∈ e.callees) : ∃ node args, .call node id args ∈ e.subexprs :=
    Phrase.exists_call (.expr e) h
  induction phrase using StmtPhrase.induct with
  | var | nil => exact absurd h List.not_mem_nil
  | call node callee args => exact hexpr (.call node callee args) h
  | assign node target source =>
    rcases List.mem_append.1 h with h | h
    · obtain ⟨n, args, hcall⟩ := hexpr target h
      exact ⟨n, args, List.mem_append_left _ hcall⟩
    · obtain ⟨n, args, hcall⟩ := hexpr source h
      exact ⟨n, args, List.mem_append_right _ hcall⟩
  | branch node condition thenBlock elseBlock ihthen ihelse =>
    rcases List.mem_append.1 h with h | h
    · rcases List.mem_append.1 h with h | h
      · obtain ⟨n, args, hcall⟩ := hexpr condition h
        exact ⟨n, args, List.mem_append_left _ (List.mem_append_left _ hcall)⟩
      · obtain ⟨n, args, hcall⟩ := ihthen h
        exact ⟨n, args, List.mem_append_left _ (List.mem_append_right _ hcall)⟩
    · obtain ⟨n, args, hcall⟩ := ihelse h
      exact ⟨n, args, List.mem_append_right _ hcall⟩
  | loop node condition body ih =>
    rcases List.mem_append.1 h with h | h
    · obtain ⟨n, args, hcall⟩ := hexpr condition h
      exact ⟨n, args, List.mem_append_left _ hcall⟩
    · obtain ⟨n, args, hcall⟩ := ih h
      exact ⟨n, args, List.mem_append_right _ hcall⟩
  | ret node value => exact hexpr value h
  | block node stmts ih => exact ih h
  | cons s ss ih ihs =>
    rcases List.mem_append.1 h with h | h
    · obtain ⟨n, args, hcall⟩ := ih h
      exact ⟨n, args, List.mem_append_left _ hcall⟩
    · obtain ⟨n, args, hcall⟩ := ihs h
      exact ⟨n, args, List.mem_append_right _ hcall⟩

theorem subexprs_subset {e : Expr} (phrase : StmtPhrase) (h : e ∈ phrase.exprs) :
    e.subexprs ⊆ phrase.exprs := by
  have hexpr (e' : Expr) (h : e ∈ e'.subexprs) : e.subexprs ⊆ e'.subexprs :=
    Phrase.subexprs_subset (.expr e') h
  induction phrase using StmtPhrase.induct with
  | var | nil => exact absurd h List.not_mem_nil
  | call node callee args => exact hexpr (.call node callee args) h
  | assign node target source =>
    rcases List.mem_append.1 h with h | h
    · exact List.subset_append_of_subset_left _ (hexpr target h)
    · exact List.subset_append_of_subset_right _ (hexpr source h)
  | branch node condition thenBlock elseBlock ihthen ihelse =>
    rcases List.mem_append.1 h with h | h
    · refine List.subset_append_of_subset_left _ ?_
      rcases List.mem_append.1 h with h | h
      · exact List.subset_append_of_subset_left _ (hexpr condition h)
      · exact List.subset_append_of_subset_right _ (ihthen h)
    · exact List.subset_append_of_subset_right _ (ihelse h)
  | loop node condition body ih =>
    rcases List.mem_append.1 h with h | h
    · exact List.subset_append_of_subset_left _ (hexpr condition h)
    · exact List.subset_append_of_subset_right _ (ih h)
  | ret node value => exact hexpr value h
  | block node stmts ih => exact ih h
  | cons s ss ih ihs =>
    rcases List.mem_append.1 h with h | h
    · exact List.subset_append_of_subset_left _ (ih h)
    · exact List.subset_append_of_subset_right _ (ihs h)

theorem exprs_subset {s : Stmt} (phrase : StmtPhrase) (h : s ∈ phrase.substmts) :
    s.exprs ⊆ phrase.exprs := by
  induction phrase using StmtPhrase.induct with
  | var | call | assign | ret =>
    cases List.mem_singleton.1 h
    exact List.Subset.refl _
  | branch node condition thenBlock elseBlock ihthen ihelse =>
    rcases List.mem_cons.1 h with rfl | h
    · exact List.Subset.refl _
    rcases List.mem_append.1 h with h | h
    · exact List.subset_append_of_subset_left _
        (List.subset_append_of_subset_right _ (ihthen h))
    · exact List.subset_append_of_subset_right _ (ihelse h)
  | loop node condition body ih =>
    rcases List.mem_cons.1 h with rfl | h
    · exact List.Subset.refl _
    · exact List.subset_append_of_subset_right _ (ih h)
  | block node stmts ih => exact ih h
  | nil => exact absurd h List.not_mem_nil
  | cons s ss ih ihs =>
    rcases List.mem_append.1 h with h | h
    · exact List.subset_append_of_subset_left _ (ih h)
    · exact List.subset_append_of_subset_right _ (ihs h)

end StmtPhrase

end MipsCompiler
