import MipsCompiler.Proofs.Parsing.Numbering
import MipsCompiler.Tree.Nodes

set_option autoImplicit false

/-!
# The order in which nodes are typed

A parse numbers its nodes from the leaves up, and checking types them in the same order, whatever the
log of the parse says. So each node is typed once, and the nodes that have a type in the end are those
of the tree.
-/

namespace MipsCompiler

open List (Perm)

theorem perm_concat_cons {ids others : List NodeId} (h : ids.Perm others) (id : NodeId) :
    (ids ++ [id]).Perm (id :: others) :=
  (List.perm_append_singleton id ids).trans (h.cons id)

namespace Phrase

def nodeIds : Phrase → List NodeId
  | .expr e => e.nodeIds
  | .args es => Expr.nodeIdsAll es

theorem postorder_perm (phrase : Phrase) : phrase.postorder.Perm phrase.nodeIds := by
  induction phrase using Phrase.induct with
  | literal | address | nil => exact Perm.refl _
  | deref node operand ih | not node operand ih | call node callee args ih =>
    exact perm_concat_cons ih node.id
  | index node left right ihleft ihright | binary node op left right ihleft ihright =>
    exact perm_concat_cons (ihleft.append ihright) node.id
  | cons e es ih ihs => exact ih.append ihs

end Phrase

theorem Expr.postorder_perm (e : Expr) : e.postorder.Perm e.nodeIds :=
  Phrase.postorder_perm (.expr e)

namespace StmtPhrase

def nodeIds : StmtPhrase → List NodeId
  | .stmt s => s.nodeIds
  | .stmts ss => Stmt.nodeIdsAll ss
  | .block b => b.nodeIds

theorem postorder_perm (phrase : StmtPhrase) : phrase.postorder.Perm phrase.nodeIds := by
  induction phrase using StmtPhrase.induct with
  | var | nil => exact Perm.refl _
  | call node callee args => exact (Expr.call node callee args).postorder_perm
  | assign node target source =>
    exact perm_concat_cons (target.postorder_perm.append source.postorder_perm) node.id
  | branch node condition thenBlock elseBlock ihthen ihelse =>
    exact perm_concat_cons ((condition.postorder_perm.append ihthen).append ihelse) node.id
  | loop node condition body ih =>
    exact perm_concat_cons (condition.postorder_perm.append ih) node.id
  | ret node value => exact perm_concat_cons value.postorder_perm node.id
  | block node stmts ih => exact perm_concat_cons ih node.id
  | cons s ss ih ihs => exact ih.append ihs

end StmtPhrase

theorem Decl.postorder_perm (decl : Decl) : decl.postorder.Perm decl.nodeIds := by
  cases decl with
  | var | array => exact Perm.refl _
  | func definition =>
    exact perm_concat_cons (StmtPhrase.postorder_perm (.block definition.body)) definition.node.id

theorem Tree.postorder_perm (tree : Tree) : tree.postorder.Perm tree.nodeIds := by
  cases tree with
  | error => exact Perm.refl _
  | program node decls =>
    have hdecls : (decls.flatMap Decl.postorder).Perm (decls.flatMap Decl.nodeIds) := by
      induction decls with
      | nil => exact Perm.refl _
      | cons decl decls ih => exact decl.postorder_perm.append ih
    exact perm_concat_cons hdecls node.id

namespace TypeTable

theorem insert_fst (table : TypeTable) (id : NodeId) (ty : Ty) :
    (table.insert id ty).1 = !table.contains id := by
  unfold insert
  cases table.contains id <;> rfl

theorem contains_insert (table : TypeTable) (id other : NodeId) (ty : Ty) :
    (table.insert other ty).2.contains id = true ↔ table.contains id = true ∨ id = other := by
  by_cases heq : id = other
  · subst heq
    unfold insert
    cases hold : table.contains id with
    | true => simp [hold]
    | false => simp [contains, get?]
  · rw [contains, get?_insert_of_ne table heq]
    simp [contains, heq]

theorem contains_insertAll (types : List (NodeId × Ty)) (table : TypeTable) (id : NodeId) :
    (table.insertAll types).contains id = true ↔
      table.contains id = true ∨ id ∈ types.map Prod.fst := by
  induction types generalizing table with
  | nil => simp [insertAll]
  | cons entry types ih =>
    change ((table.insert entry.1 entry.2).2.insertAll types).contains id = true ↔ _
    rw [ih, contains_insert, List.map_cons, List.mem_cons, or_assoc]

theorem contains_ofList (types : List (NodeId × Ty)) (id : NodeId) :
    (ofList types).contains id = true ↔ id ∈ types.map Prod.fst := by
  have hall := contains_insertAll types empty id
  rw [or_iff_right (show ¬ empty.contains id = true from Bool.false_ne_true)] at hall
  exact hall

theorem insert_accepted {before after : List (NodeId × Ty)} {entry : NodeId × Ty}
    (hnodup : ((before ++ entry :: after).map Prod.fst).Nodup) :
    ((ofList before).insert entry.1 entry.2).1 = true := by
  rw [List.map_append, List.nodup_append] at hnodup
  have hnew : (ofList before).contains entry.1 = false := by
    rw [Bool.eq_false_iff, Ne, contains_ofList]
    intro hmem
    exact hnodup.2.2 _ hmem _ List.mem_cons_self rfl
  rw [insert_fst, hnew]
  rfl

end TypeTable

def Tree.records (symbols : SymbolTable) (entry : String) (tree : Tree) : List (NodeId × Ty) :=
  (tree.entries symbols entry).map fun e => (e.id, e.ty)

theorem check_types (symbols : SymbolTable) (entry : String) (tree : Tree) :
    (check symbols entry tree).types = .ofList (tree.records symbols entry) :=
  rfl

theorem Tree.records_ids (symbols : SymbolTable) (entry : String) (tree : Tree) :
    (tree.records symbols entry).map Prod.fst = tree.postorder := by
  rw [records, List.map_map]
  exact tree.entries_ids symbols entry

theorem parse_postorder {σ : Type} [TokenStream σ] {stream : σ}
    (h : (parse stream).tree.isError = false) :
    (parse stream).tree.postorder = List.range (parse stream).nodeCount := by
  obtain ⟨hcount, hids⟩ := parse_numbers h
  rw [List.range_eq_range', ← hcount, Nat.zero_add]
  exact hids

/-- If a parse is not given up, checking it records a type for the nodes 0, 1, 2 and so on in this
order, none of them twice, and then exactly the nodes of the tree have a type. If it is given up, its
one node gets the error type of the message. -/
theorem nodes_typed_in_order (tokens : List Token) (entry : String) :
    ((parseTokens tokens).tree.isError = false →
      ((parseTokens tokens).tree.records (parseTokens tokens).symbols entry).map Prod.fst =
          List.range (parseTokens tokens).nodeCount ∧
        (∀ before record after, (parseTokens tokens).tree.records (parseTokens tokens).symbols entry =
            before ++ record :: after →
          ((TypeTable.ofList before).insert record.1 record.2).1 = true) ∧
        ∀ id, (check (parseTokens tokens).symbols entry
            (parseTokens tokens).tree).types.contains id = true ↔
          id ∈ (parseTokens tokens).tree.nodeIds) ∧
    ((parseTokens tokens).tree.isError = true →
      ∃ pos message,
        (parseTokens tokens).tree = .error ⟨(parseTokens tokens).nodeCount - 1, pos⟩ message ∧
        (check (parseTokens tokens).symbols entry (parseTokens tokens).tree).types.entries =
          [((parseTokens tokens).nodeCount - 1, .error message)]) := by
  refine ⟨fun h => ?_, fun h => ?_⟩
  · have hids := (Tree.records_ids (parseTokens tokens).symbols entry
      (parseTokens tokens).tree).trans (parse_postorder h)
    refine ⟨hids, ?_, ?_⟩
    · intro before record after hsplit
      rw [hsplit] at hids
      exact TypeTable.insert_accepted (hids ▸ List.nodup_range)
    · intro id
      rw [check_types, TypeTable.contains_ofList, Tree.records_ids]
      exact (Tree.postorder_perm _).mem_iff
  · obtain ⟨⟨id, pos⟩, message, htree, hcount⟩ := parse_error h
    have hid : (parseTokens tokens).nodeCount - 1 = id := by
      rw [parseTokens, hcount]
      rfl
    have htree : (parseTokens tokens).tree = .error ⟨id, pos⟩ message := htree
    rw [hid, htree]
    exact ⟨pos, message, rfl, rfl⟩

/-- A declaration whose name is taken: the parse logs it and is not given up. -/
def redeclaration : List Token :=
  [⟨.varKw, "var", ⟨1, 1⟩⟩, ⟨.identifier, "println", ⟨1, 5⟩⟩, ⟨.colon, ":", ⟨1, 13⟩⟩,
    ⟨.identifier, "int", ⟨1, 15⟩⟩, ⟨.semicolon, ";", ⟨1, 18⟩⟩]

theorem redeclaration_typed_in_order :
    (parseTokens redeclaration).log.length = 1 ∧
      ((parseTokens redeclaration).tree.records (parseTokens redeclaration).symbols "main").map
        Prod.fst = List.range 2 ∧
      ∃ message, (check (parseTokens [⟨.comma, ",", ⟨1, 1⟩⟩]).symbols "main"
        (parseTokens [⟨.comma, ",", ⟨1, 1⟩⟩]).tree).types.entries = [(0, .error message)] := by
  have hparsed : (parseTokens redeclaration).log.length = 1 ∧
      (parseTokens redeclaration).tree.isError = false ∧
      (parseTokens redeclaration).nodeCount = 2 := by decide +kernel
  have hgiven : (parseTokens [⟨.comma, ",", ⟨1, 1⟩⟩]).tree.isError = true ∧
      (parseTokens [⟨.comma, ",", ⟨1, 1⟩⟩]).nodeCount = 1 := by decide +kernel
  obtain ⟨hlog, htree, hcount⟩ := hparsed
  have hids := ((nodes_typed_in_order redeclaration "main").1 htree).1
  obtain ⟨_, message, _, hentries⟩ :=
    (nodes_typed_in_order [⟨.comma, ",", ⟨1, 1⟩⟩] "main").2 hgiven.1
  rw [hcount] at hids
  rw [hgiven.2] at hentries
  exact ⟨hlog, hids, message, hentries⟩

end MipsCompiler
