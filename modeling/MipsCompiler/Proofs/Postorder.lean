import MipsCompiler.Proofs.Typing.NodeOrder

set_option autoImplicit false

/-!
# Nodes in post-order

`Subtree.postorder` lists the nodes of a tree by its children alone: what is below a node comes
before it, child by child in the order of the text. A parse that is not given up numbers the nodes by
their places in this listing. So no number is lost, and a node has a larger number than all below it.
-/

namespace MipsCompiler

inductive Subtree where
  | tree (tree : Tree)
  | decl (decl : Decl)
  | block (block : Block)
  | stmt (stmt : Stmt)
  | expr (expr : Expr)

namespace Subtree

def node : Subtree → Node
  | tree t => t.node
  | decl d => d.node
  | block b => b.node
  | stmt s => s.node
  | expr e => e.node

def id (part : Subtree) : NodeId :=
  part.node.id

/-- The nodes right below a node, in the order of the text. A branch has its second block even where
the text has no `else`. -/
def children : Subtree → List Subtree
  | tree (.program _ decls) => decls.map decl
  | tree (.error _ _) => []
  | decl (.var _) => []
  | decl (.array _) => []
  | decl (.func definition) => [block definition.body]
  | block (.mk _ stmts) => stmts.map stmt
  | stmt (.var _) => []
  | stmt (.call _ _ args) => args.map expr
  | stmt (.assign _ target source) => [expr target, expr source]
  | stmt (.branch _ condition thenBlock elseBlock) =>
    [expr condition, block thenBlock, block elseBlock]
  | stmt (.loop _ condition body) => [expr condition, block body]
  | stmt (.ret _ value) => [expr value]
  | expr (.literal _ _) => []
  | expr (.address _ _) => []
  | expr (.deref _ operand) => [expr operand]
  | expr (.index _ base offset) => [expr base, expr offset]
  | expr (.binary _ _ left right) => [expr left, expr right]
  | expr (.not _ operand) => [expr operand]
  | expr (.call _ _ args) => args.map expr

section

variable {part child other : Subtree}

theorem sizeOf_arg {args : List Expr} (h : child ∈ args.map expr) :
    sizeOf child < 1 + sizeOf args := by
  obtain ⟨e, he, rfl⟩ := List.mem_map.1 h
  have hlt := List.sizeOf_lt_of_mem he
  rw [expr.sizeOf_spec]
  omega

theorem sizeOf_child (h : child ∈ part.children) : sizeOf child < sizeOf part := by
  cases part with
  | tree t =>
    cases t with
    | error => exact absurd h List.not_mem_nil
    | program node decls =>
      obtain ⟨d, hd, rfl⟩ := List.mem_map.1 h
      have hlt := List.sizeOf_lt_of_mem hd
      simp
      omega
  | decl d =>
    cases d with
    | var | array => exact absurd h List.not_mem_nil
    | func definition =>
      cases List.mem_singleton.1 h
      cases definition
      simp
      omega
  | block b =>
    cases b with
    | mk node stmts =>
      obtain ⟨s, hs, rfl⟩ := List.mem_map.1 h
      have hlt := List.sizeOf_lt_of_mem hs
      simp
      omega
  | stmt s =>
    cases s with
    | var => exact absurd h List.not_mem_nil
    | call node callee args =>
      have hlt := sizeOf_arg h
      simp
      omega
    | _ =>
      simp only [children, List.mem_cons, List.not_mem_nil, or_false] at h
      rcases h with rfl | rfl | rfl <;> simp <;> omega
  | expr e =>
    cases e with
    | literal | address => exact absurd h List.not_mem_nil
    | call node callee args =>
      have hlt := sizeOf_arg h
      simp
      omega
    | _ =>
      simp only [children, List.mem_cons, List.not_mem_nil, or_false] at h
      rcases h with rfl | rfl <;> simp <;> omega

def postorder (part : Subtree) : List Subtree :=
  (part.children.attach.flatMap fun child => child.val.postorder) ++ [part]
termination_by sizeOf part
decreasing_by exact sizeOf_child child.property

theorem postorder_eq (part : Subtree) :
    part.postorder = part.children.flatMap postorder ++ [part] := by
  have hattach := List.flatMap_map Subtype.val postorder part.children.attach
  rw [List.attach_map_subtype_val] at hattach
  rw [postorder, hattach]

/-- Induction over a tree: what holds of a node if it holds of its children holds of all nodes. -/
@[elab_as_elim]
theorem induct {P : Subtree → Prop} (step : ∀ part, (∀ child ∈ part.children, P child) → P part)
    (part : Subtree) : P part := by
  induction part using postorder.induct with
  | case1 part ih => exact step part fun child hchild => ih ⟨child, hchild⟩

theorem mem_postorder : other ∈ part.postorder ↔
    (∃ child ∈ part.children, other ∈ child.postorder) ∨ other = part := by
  rw [postorder_eq, List.mem_append, List.mem_flatMap, List.mem_singleton]

theorem self_mem_postorder (part : Subtree) : part ∈ part.postorder :=
  mem_postorder.2 (.inr rfl)

theorem child_mem_postorder (h : child ∈ part.children) (hother : other ∈ child.postorder) :
    other ∈ part.postorder :=
  mem_postorder.2 (.inl ⟨child, h, hother⟩)

theorem forall_mem_postorder {P : Subtree → Prop}
    (hstep : ∀ part, P part → ∀ child ∈ part.children, P child) (hpart : P part) :
    ∀ other ∈ part.postorder, P other := by
  induction part using induct with
  | step part ih =>
    intro other h
    rcases mem_postorder.1 h with ⟨child, hchild, h⟩ | rfl
    · exact ih child hchild (hstep part hpart child hchild) other h
    · exact hpart

theorem postorder_sublist (h : other ∈ part.postorder) :
    other.postorder.Sublist part.postorder := by
  induction part using induct with
  | step part ih =>
    rcases mem_postorder.1 h with ⟨child, hchild, h⟩ | rfl
    · have hchildren : child.postorder.Sublist (part.children.flatMap postorder) :=
        List.sublist_flatten_of_mem (List.mem_map_of_mem hchild)
      rw [postorder_eq part]
      exact List.sublist_append_of_sublist_left ((ih child hchild h).trans hchildren)
    · exact List.Sublist.refl _

inductive Below (part : Subtree) : Subtree → Prop
  | child {child : Subtree} : child ∈ part.children → Below part child
  | deeper {middle child : Subtree} : Below part middle → child ∈ middle.children → Below part child

theorem Below.mem_postorder (h : Below part other) :
    other ∈ part.children.flatMap postorder := by
  induction h with
  | child hchild => exact List.mem_flatMap.2 ⟨_, hchild, self_mem_postorder _⟩
  | @deeper middle child _ hchild ih =>
    obtain ⟨first, hfirst, hmiddle⟩ := List.mem_flatMap.1 ih
    have hmem := child_mem_postorder hchild child.self_mem_postorder
    exact List.mem_flatMap.2 ⟨first, hfirst, (postorder_sublist hmiddle).subset hmem⟩

end

def ids : Subtree → List NodeId
  | tree t => t.postorder
  | decl d => d.postorder
  | block b => b.postorder
  | stmt s => s.postorder
  | expr e => e.postorder

theorem postorderAll_args (es : List Expr) :
    Expr.postorderAll es = (es.map expr).flatMap ids := by
  induction es with
  | nil => rfl
  | cons e es ih =>
    rw [Expr.postorderAll, ih]
    rfl

theorem postorderAll_stmts (ss : List Stmt) :
    Stmt.postorderAll ss = (ss.map stmt).flatMap ids := by
  induction ss with
  | nil => rfl
  | cons s ss ih =>
    rw [Stmt.postorderAll, ih]
    rfl

theorem ids_eq (part : Subtree) : part.ids = part.children.flatMap ids ++ [part.id] := by
  cases part with
  | tree t =>
    cases t with
    | error => rfl
    | program node decls =>
      rw [children, List.flatMap_map]
      rfl
  | decl d => cases d <;> simp [ids, children, id, node, Decl.postorder, Decl.node]
  | block b =>
    cases b with
    | mk node stmts => exact congrArg (· ++ [node.id]) (postorderAll_stmts stmts)
  | stmt s =>
    cases s with
    | call node callee args => exact congrArg (· ++ [node.id]) (postorderAll_args args)
    | _ => simp [ids, children, id, node, Stmt.postorder, Stmt.node]
  | expr e =>
    cases e with
    | call node callee args => exact congrArg (· ++ [node.id]) (postorderAll_args args)
    | _ => simp [ids, children, id, node, Expr.postorder, Expr.node]

theorem postorder_ids (part : Subtree) : part.postorder.map id = part.ids := by
  induction part using induct with
  | step part ih =>
    have hchildren : (part.children.flatMap postorder).map id = part.children.flatMap ids := by
      rw [List.map_flatMap, List.flatMap_def, List.map_congr_left ih, ← List.flatMap_def]
    rw [postorder_eq, List.map_append, hchildren, ids_eq]
    rfl

theorem Below.id_lt {whole part other : Subtree} (hwhole : (whole.postorder.map id).Pairwise (· < ·))
    (hpart : part ∈ whole.postorder) (h : Below part other) : other.id < part.id := by
  have hordered : (part.postorder.map id).Pairwise (· < ·) :=
    hwhole.sublist ((postorder_sublist hpart).map id)
  rw [postorder_eq, List.map_append, List.pairwise_append] at hordered
  exact hordered.2.2 other.id (List.mem_map_of_mem h.mem_postorder) part.id List.mem_cons_self

end Subtree

theorem parse_subtree_ids {σ : Type} [TokenStream σ] {stream : σ}
    (h : (parse stream).tree.isError = false) :
    (Subtree.tree (parse stream).tree).postorder.map Subtree.id =
      List.range (parse stream).nodeCount := by
  rw [Subtree.postorder_ids]
  exact parse_postorder h

/-- What stands in parentheses is the expression inside, and no node is numbered for them. -/
theorem Parser.operand_in_parens {σ : Type} [TokenStream σ] {n : Nat} {s t : ParseState σ} {e : Expr}
    (hopen : s.token.kind = .openParen) (h : operand (n + 1) s = .ok e t) :
    ∃ u, comparison (operand n) s.advance = .ok e u ∧ t.nodeCount = u.nodeCount := by
  simp only [operand, bind_ok, peek_ok, and_assoc, exists_and_left, exists_eq_left, hopen,
    parenthesized, advance_ok, expect_ok, pure_ok] at h
  obtain ⟨_, u, hinner, _, rfl, rfl⟩ := h
  exact ⟨u, hinner, rfl⟩

/-- If a parse is not given up, each node has the number of its place in the post-order listing, so
the numbers of a tree are those below the node count, each once, and a node has a larger number than
all below it. If it is given up, the one node has the last number. Parentheses take no number. -/
theorem nodes_numbered_in_postorder (tokens : List Token) :
    ((parseTokens tokens).tree.isError = false →
      (Subtree.tree (parseTokens tokens).tree).postorder.map Subtree.id =
          List.range (parseTokens tokens).nodeCount ∧
        (parseTokens tokens).tree.nodeIds.Perm (List.range (parseTokens tokens).nodeCount) ∧
        ∀ part ∈ (Subtree.tree (parseTokens tokens).tree).postorder, ∀ other,
          part.Below other → other.id < part.id) ∧
    ((parseTokens tokens).tree.isError = true →
      (parseTokens tokens).tree.nodeIds = [(parseTokens tokens).nodeCount - 1]) ∧
    ∀ (n : Nat) (s t : ParseState TokenQueue) (e : Expr), s.token.kind = .openParen →
      Parser.operand (n + 1) s = .ok e t →
      ∃ u, Parser.comparison (Parser.operand n) s.advance = .ok e u ∧ t.nodeCount = u.nodeCount := by
  refine ⟨fun h => ?_, fun h => ?_, fun _ _ _ _ => Parser.operand_in_parens⟩
  · have hids := parse_subtree_ids h
    refine ⟨hids, ?_, ?_⟩
    · have hperm := (parseTokens tokens).tree.postorder_perm
      rw [parseTokens, parse_postorder h] at hperm
      exact hperm.symm
    · intro part hpart other hbelow
      exact hbelow.id_lt (hids ▸ List.pairwise_lt_range) hpart
  · obtain ⟨node, message, htree, hcount⟩ := parse_error h
    rw [parseTokens, htree, hcount]
    rfl

def guardedReturn : List Token :=
  [⟨.funcKw, "func", ⟨1, 1⟩⟩, ⟨.identifier, "f", ⟨1, 6⟩⟩, ⟨.openParen, "(", ⟨1, 7⟩⟩,
    ⟨.closeParen, ")", ⟨1, 8⟩⟩, ⟨.colon, ":", ⟨1, 10⟩⟩, ⟨.identifier, "int", ⟨1, 12⟩⟩,
    ⟨.openBrace, "\x7b", ⟨1, 16⟩⟩, ⟨.ifKw, "if", ⟨1, 18⟩⟩, ⟨.openParen, "(", ⟨1, 21⟩⟩,
    ⟨.trueKw, "true", ⟨1, 22⟩⟩, ⟨.closeParen, ")", ⟨1, 26⟩⟩, ⟨.openBrace, "\x7b", ⟨1, 28⟩⟩,
    ⟨.closeBrace, "\x7d", ⟨1, 30⟩⟩, ⟨.returnKw, "return", ⟨1, 32⟩⟩, ⟨.integer, "1", ⟨1, 39⟩⟩,
    ⟨.semicolon, ";", ⟨1, 40⟩⟩, ⟨.closeBrace, "\x7d", ⟨1, 42⟩⟩]

theorem guardedReturn_numbered :
    (Subtree.tree (parseTokens guardedReturn).tree).postorder.map Subtree.id = List.range 9 ∧
      (parseTokens (guardedReturn.take 16)).tree.nodeIds = [6] ∧
      ∃ e t u, Parser.operand 3 ⟨TokenQueue.ofTokens (guardedReturn.drop 8), Scope.initial, [], 0⟩ =
          .ok e t ∧
        Parser.comparison (Parser.operand 2)
          ⟨TokenQueue.ofTokens (guardedReturn.drop 9), Scope.initial, [], 0⟩ = .ok e u ∧
        t.nodeCount = u.nodeCount := by
  have hread : (parseTokens guardedReturn).tree.isError = false ∧
      (parseTokens guardedReturn).nodeCount = 9 := by decide +kernel
  have hcut : (parseTokens (guardedReturn.take 16)).tree.isError = true ∧
      (parseTokens (guardedReturn.take 16)).nodeCount = 7 := by decide +kernel
  have hids := ((nodes_numbered_in_postorder guardedReturn).1 hread.1).1
  have hlast := (nodes_numbered_in_postorder (guardedReturn.take 16)).2.1 hcut.1
  rw [hread.2] at hids
  rw [hcut.2] at hlast
  obtain ⟨u, hinner, hcount⟩ := (nodes_numbered_in_postorder []).2.2 2
    ⟨TokenQueue.ofTokens (guardedReturn.drop 8), Scope.initial, [], 0⟩ _ _ rfl rfl
  exact ⟨hids, hlast, _, _, u, rfl, hinner, hcount⟩

end MipsCompiler
