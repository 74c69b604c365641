import MipsCompiler.Proofs.Parsing.Derivation
import MipsCompiler.Typing.Program

set_option autoImplicit false

/-!
# Numbers of nodes

A parser numbers the nodes of a tree from the leaves up: the numbers of a phrase, listed with every
node behind the nodes below it, are consecutive. Types are entered in the same order.
-/

namespace MipsCompiler

mutual

def Expr.postorder : Expr → List NodeId
  | .literal node _ => [node.id]
  | .address node _ => [node.id]
  | .deref node operand => operand.postorder ++ [node.id]
  | .index node base offset => base.postorder ++ offset.postorder ++ [node.id]
  | .binary node _ left right => left.postorder ++ right.postorder ++ [node.id]
  | .not node operand => operand.postorder ++ [node.id]
  | .call node _ args => Expr.postorderAll args ++ [node.id]

def Expr.postorderAll : List Expr → List NodeId
  | [] => []
  | e :: es => e.postorder ++ Expr.postorderAll es

end

mutual

def Stmt.postorder : Stmt → List NodeId
  | .var decl => [decl.node.id]
  | .call node _ args => Expr.postorderAll args ++ [node.id]
  | .assign node target source => target.postorder ++ source.postorder ++ [node.id]
  | .branch node condition thenBlock elseBlock =>
    condition.postorder ++ thenBlock.postorder ++ elseBlock.postorder ++ [node.id]
  | .loop node condition body => condition.postorder ++ body.postorder ++ [node.id]
  | .ret node value => value.postorder ++ [node.id]

def Block.postorder : Block → List NodeId
  | .mk node stmts => Stmt.postorderAll stmts ++ [node.id]

def Stmt.postorderAll : List Stmt → List NodeId
  | [] => []
  | s :: ss => s.postorder ++ Stmt.postorderAll ss

end

def Decl.postorder : Decl → List NodeId
  | .var decl => [decl.node.id]
  | .array decl => [decl.node.id]
  | .func definition => definition.body.postorder ++ [definition.node.id]

def Tree.postorder : Tree → List NodeId
  | .program node decls => decls.flatMap Decl.postorder ++ [node.id]
  | .error node _ => [node.id]

def Consecutive (first : Nat) (ids : List NodeId) (next : Nat) : Prop :=
  first + ids.length = next ∧ ids = List.range' first ids.length

namespace Consecutive

variable {first next last : Nat} {ids others : List NodeId}

theorem nil : Consecutive first [] first :=
  ⟨rfl, rfl⟩

theorem one : Consecutive first [first] (first + 1) :=
  ⟨rfl, rfl⟩

theorem append (h : Consecutive first ids next) (h' : Consecutive next others last) :
    Consecutive first (ids ++ others) last := by
  obtain ⟨hnext, hids⟩ := h
  obtain ⟨hlast, hothers⟩ := h'
  refine ⟨by rw [List.length_append]; omega, ?_⟩
  rw [List.length_append, ← List.range'_append_1, hnext, ← hids, ← hothers]

theorem concat (h : Consecutive first ids next) : Consecutive first (ids ++ [next]) (next + 1) :=
  h.append one

theorem nodup (h : Consecutive first ids next) : ids.Nodup := by
  rw [h.2]
  exact List.nodup_range'

end Consecutive

def Phrase.postorder : Phrase → List NodeId
  | .expr e => e.postorder
  | .args es => Expr.postorderAll es

def StmtPhrase.postorder : StmtPhrase → List NodeId
  | .stmt s => s.postorder
  | .stmts ss => Stmt.postorderAll ss
  | .block b => b.postorder

namespace Parser

theorem Items.numbers {σ α : Type} {R : ParseState σ → α → ParseState σ → Prop}
    {s t : ParseState σ} {ids : α → List NodeId}
    (hR : ∀ s a t, R s a t → Consecutive s.nodeCount (ids a) t.nodeCount) {as : List α}
    (h : Items R s as t) : Consecutive s.nodeCount (as.flatMap ids) t.nodeCount := by
  induction h with
  | nil => exact .nil
  | cons hitem _ ih => exact (hR _ _ _ hitem).append ih

variable {σ : Type} [TokenStream σ] {s t : ParseState σ}

open ParseState (declare_nodeCount resolve_nodeCount)

theorem Derives.numbers {rule : Rule} {phrase : Phrase} (h : Derives rule s phrase t) :
    Consecutive s.nodeCount phrase.postorder t.nodeCount := by
  induction h with
  | literal => exact .one
  | negation _ _ ih => exact ih.concat
  | parenthesized _ _ _ ih => exact ih
  | load _ ih => exact ih.concat
  | called _ ih => exact ih
  | promoted _ ih => exact ih
  | binary _ _ _ left right => exact (left.append right).concat
  | name _ hresolve => exact resolve_nodeCount hresolve ▸ .one
  | subscript _ _ _ _ base offset => exact (base.append offset).concat
  | call _ _ hresolve _ _ _ args =>
    have hcount := resolve_nodeCount hresolve
    exact hcount ▸ args.concat
  | noArguments => exact .nil
  | arguments _ _ first rest => exact first.append rest
  | noMore => exact .nil
  | more _ _ _ first rest => exact first.append rest

theorem Annotates.nodeCount {kind : SymbolKind} {id : SymbolId} (h : Annotates kind s id t) :
    t.nodeCount = s.nodeCount := by
  obtain ⟨_, hdeclare, _, _⟩ := h
  have hcount := declare_nodeCount hdeclare
  exact hcount

theorem DerivesVar.numbers {decl : VarDecl} (h : DerivesVar s decl t) :
    Consecutive s.nodeCount [decl.node.id] t.nodeCount := by
  obtain ⟨_, hname, _⟩ := h
  have hcount := hname.nodeCount
  exact hcount ▸ .one

theorem DerivesStmt.numbers {rule : StmtRule} {phrase : StmtPhrase}
    (h : DerivesStmt rule s phrase t) :
    Consecutive s.nodeCount phrase.postorder t.nodeCount := by
  induction h with
  | var h => exact h.numbers
  | call h _ => exact h.numbers
  | assign _ htarget _ hsource _ => exact (htarget.numbers.append hsource.numbers).concat
  | ret _ hvalue _ => exact hvalue.numbers.concat
  | branch _ hcondition _ _ taken other =>
    exact ((hcondition.numbers.append taken).append other).concat
  | loop _ hcondition _ body => exact (hcondition.numbers.append body).concat
  | @block s t ownScope stmts _ _ _ ih =>
    rw [ParseState.opened_nodeCount, ← ParseState.closed_nodeCount t ownScope] at ih
    exact ih.concat
  | otherwise _ _ ih => exact ih
  | missing => exact .one
  | nil => exact .nil
  | cons _ _ first rest => exact first.append rest

theorem DerivesParams.nodeCount {ids : List SymbolId} (h : DerivesParams s ids t) :
    t.nodeCount = s.nodeCount := by
  cases h with
  | none => rfl
  | some hfirst hrest =>
    have hcount := hrest.keeps (fun _ _ _ ⟨_, h⟩ => h.nodeCount)
    exact hcount.trans hfirst.nodeCount

theorem DerivesArray.numbers {decl : VarDecl} (h : DerivesArray s decl t) :
    Consecutive s.nodeCount [decl.node.id] t.nodeCount := by
  obtain ⟨_, _, hdeclare, _, _, _, hextents, _⟩ := h
  have hcount := declare_nodeCount hdeclare
  have hextent := hextents.keeps (f := ParseState.nodeCount) (fun _ _ _ ⟨_, _, _, _⟩ => rfl)
  exact hextent.trans hcount ▸ .one

theorem DerivesFunction.numbers {definition : FuncDef} (h : DerivesFunction s definition t) :
    Consecutive s.nodeCount (definition.body.postorder ++ [definition.node.id]) t.nodeCount := by
  obtain ⟨_, _, hdeclare, _, hparams, _, _, _, hbody⟩ := h
  have hcount := declare_nodeCount hdeclare
  exact hparams.nodeCount.trans hcount ▸ hbody.numbers.concat

theorem DerivesDecl.numbers {decl : Decl} (h : DerivesDecl s decl t) :
    Consecutive s.nodeCount decl.postorder t.nodeCount := by
  cases h with
  | var h => exact h.numbers
  | array h => exact h.numbers
  | func h => exact h.numbers

theorem DerivesProgram.numbers {tree : Tree} (h : DerivesProgram s tree t) :
    Consecutive s.nodeCount tree.postorder t.nodeCount := by
  obtain ⟨hdecls, _⟩ := h
  exact (hdecls.numbers fun _ _ _ h => h.numbers).concat

end Parser

/-- A parse that is not given up numbers the nodes of its tree from 0 on, refused names or not. -/
theorem parse_numbers {σ : Type} [TokenStream σ] {stream : σ}
    (h : (parse stream).tree.isError = false) :
    Consecutive 0 (parse stream).tree.postorder (parse stream).nodeCount := by
  obtain ⟨_, _, hderives, hparse⟩ := parse_derives h
  rw [hparse]
  exact hderives.numbers

theorem Expr.postorder_pos (e : Expr) : 0 < e.postorder.length := by
  cases e with
  | literal | address => exact Nat.zero_lt_one
  | _ =>
    rw [Expr.postorder, List.length_append]
    exact Nat.succ_pos _

theorem Expr.length_le_postorderAll (es : List Expr) : es.length ≤ (postorderAll es).length := by
  induction es with
  | nil => exact Nat.le_refl _
  | cons e es ih =>
    have hfirst := e.postorder_pos
    rw [postorderAll, List.length_append, List.length_cons]
    omega

theorem Expr.argCount_le (e : Expr) : e.argCount ≤ e.postorder.length := by
  cases e with
  | call node callee args =>
    have hargs := length_le_postorderAll args
    simp only [argCount, postorder, List.length_append]
    omega
  | _ => exact Nat.zero_le _

theorem Phrase.postorder_sublist {e : Expr} (phrase : Phrase) (h : e ∈ phrase.subexprs) :
    e.postorder.Sublist phrase.postorder := by
  induction phrase using Phrase.induct with
  | literal | address =>
    cases List.mem_singleton.1 h
    exact List.Sublist.refl _
  | deref node operand ih | not node operand ih | call node callee args ih =>
    rcases List.mem_cons.1 h with rfl | h
    · exact List.Sublist.refl _
    · exact List.sublist_append_of_sublist_left (ih h)
  | index node left right ihleft ihright | binary node op left right ihleft ihright =>
    rcases List.mem_cons.1 h with rfl | h
    · exact List.Sublist.refl _
    refine List.sublist_append_of_sublist_left ?_
    rcases List.mem_append.1 h with h | h
    · exact List.sublist_append_of_sublist_left (ihleft h)
    · exact List.sublist_append_of_sublist_right (ihright h)
  | nil => exact absurd h List.not_mem_nil
  | cons e es ih ihs =>
    rcases List.mem_append.1 h with h | h
    · exact List.sublist_append_of_sublist_left (ih h)
    · exact List.sublist_append_of_sublist_right (ihs h)

theorem StmtPhrase.postorder_sublist {e : Expr} (phrase : StmtPhrase) (h : e ∈ phrase.exprs) :
    e.postorder.Sublist phrase.postorder := by
  have hexpr (e' : Expr) (h : e ∈ e'.subexprs) : e.postorder.Sublist e'.postorder :=
    Phrase.postorder_sublist (.expr e') h
  induction phrase using StmtPhrase.induct with
  | var | nil => exact absurd h List.not_mem_nil
  | call node callee args => exact hexpr (.call node callee args) h
  | assign node target source =>
    refine List.sublist_append_of_sublist_left ?_
    rcases List.mem_append.1 h with h | h
    · exact List.sublist_append_of_sublist_left (hexpr target h)
    · exact List.sublist_append_of_sublist_right (hexpr source h)
  | branch node condition thenBlock elseBlock ihthen ihelse =>
    refine List.sublist_append_of_sublist_left ?_
    rcases List.mem_append.1 h with h | h
    · refine List.sublist_append_of_sublist_left ?_
      rcases List.mem_append.1 h with h | h
      · exact List.sublist_append_of_sublist_left (hexpr condition h)
      · exact List.sublist_append_of_sublist_right (ihthen h)
    · exact List.sublist_append_of_sublist_right (ihelse h)
  | loop node condition body ih =>
    refine List.sublist_append_of_sublist_left ?_
    rcases List.mem_append.1 h with h | h
    · exact List.sublist_append_of_sublist_left (hexpr condition h)
    · exact List.sublist_append_of_sublist_right (ih h)
  | ret node value => exact List.sublist_append_of_sublist_left (hexpr value h)
  | block node stmts ih => exact List.sublist_append_of_sublist_left (ih h)
  | cons s ss ih ihs =>
    rcases List.mem_append.1 h with h | h
    · exact List.sublist_append_of_sublist_left (ih h)
    · exact List.sublist_append_of_sublist_right (ihs h)

theorem Tree.argCount_le {tree : Tree} {definition : FuncDef} (hmem : .func definition ∈ tree.decls)
    {e : Expr} (he : e ∈ definition.body.exprs) : e.argCount ≤ tree.postorder.length := by
  have hbody : e.postorder.Sublist definition.body.postorder :=
    StmtPhrase.postorder_sublist (.block definition.body) he
  cases tree with
  | error => exact absurd hmem List.not_mem_nil
  | program node decls =>
    have hdecl : (Decl.func definition).postorder.Sublist (decls.flatMap Decl.postorder) :=
      List.sublist_flatten_of_mem (List.mem_map_of_mem hmem)
    have hsublist : e.postorder.Sublist (Tree.program node decls).postorder :=
      List.sublist_append_of_sublist_left
        ((List.sublist_append_of_sublist_left hbody).trans hdecl)
    exact Nat.le_trans e.argCount_le hsublist.length_le

section

variable (symbols : SymbolTable)

theorem Expr.entry_id (e : Expr) : (Expr.entry symbols e).id = e.node.id := by
  cases e <;> rfl

mutual

theorem Expr.entries_ids (e : Expr) :
    (e.entries symbols).map TypeEntry.id = e.postorder := by
  cases e with
  | literal | address => rfl
  | deref node operand =>
    simp [Expr.entries, Expr.postorder, Expr.entry_id, Expr.node, Expr.entries_ids operand]
  | index node base offset =>
    simp [Expr.entries, Expr.postorder, Expr.entry_id, Expr.node, Expr.entries_ids base,
      Expr.entries_ids offset]
  | binary node op left right =>
    simp [Expr.entries, Expr.postorder, Expr.entry_id, Expr.node, Expr.entries_ids left,
      Expr.entries_ids right]
  | not node operand =>
    simp [Expr.entries, Expr.postorder, Expr.entry_id, Expr.node, Expr.entries_ids operand]
  | call node callee args =>
    simp [Expr.entries, Expr.postorder, Expr.entry_id, Expr.node, Expr.entriesAll_ids args]

theorem Expr.entriesAll_ids (es : List Expr) :
    (Expr.entriesAll symbols es).map TypeEntry.id = Expr.postorderAll es := by
  cases es with
  | nil => rfl
  | cons e es =>
    simp [Expr.entriesAll, Expr.postorderAll, Expr.entries_ids e, Expr.entriesAll_ids es]

end

end

@[simp] theorem TypeEntry.declared_id (symbol : Symbol) (node : Node) (ty : Ty) :
    (TypeEntry.declared symbol node ty).id = node.id := by
  unfold TypeEntry.declared
  split <;> rfl

mutual

theorem Stmt.entries_ids (promise : Promise) (s : Stmt) :
    (s.entries promise).map TypeEntry.id = s.postorder := by
  cases s with
  | var decl => simp [Stmt.entries, Stmt.postorder, VarDecl.variableEntry]
  | call node callee args =>
    simp [Stmt.entries, Stmt.postorder, Expr.entries_ids, Expr.postorder]
  | assign node target source =>
    simp [Stmt.entries, Stmt.postorder, Expr.entries_ids, TypeEntry.computed]
  | branch node condition thenBlock elseBlock =>
    simp [Stmt.entries, Stmt.postorder, Expr.entries_ids, TypeEntry.computed,
      Block.entries_ids promise thenBlock, Block.entries_ids promise elseBlock]
  | loop node condition body =>
    simp [Stmt.entries, Stmt.postorder, Expr.entries_ids, TypeEntry.computed,
      Block.entries_ids promise body]
  | ret node value => simp [Stmt.entries, Stmt.postorder, Expr.entries_ids, TypeEntry.computed]

theorem Block.entries_ids (promise : Promise) (b : Block) :
    (b.entries promise).map TypeEntry.id = b.postorder := by
  cases b with
  | mk node stmts =>
    simp [Block.entries, Block.postorder, TypeEntry.silent, Stmt.entriesAll_ids promise stmts]

theorem Stmt.entriesAll_ids (promise : Promise) (ss : List Stmt) :
    (Stmt.entriesAll promise ss).map TypeEntry.id = Stmt.postorderAll ss := by
  cases ss with
  | nil => rfl
  | cons s ss =>
    simp [Stmt.entriesAll, Stmt.postorderAll, Stmt.entries_ids promise s,
      Stmt.entriesAll_ids promise ss]

end

theorem Decl.entries_ids (symbols : SymbolTable) (entry : String) (decl : Decl) :
    (decl.entries symbols entry).map TypeEntry.id = decl.postorder := by
  cases decl with
  | var decl => simp [Decl.entries, Decl.postorder, VarDecl.variableEntry]
  | array decl => simp [Decl.entries, Decl.postorder, VarDecl.arrayEntry]
  | func definition =>
    simp [Decl.entries, Decl.postorder, FuncDef.entries, Block.entries_ids]

theorem Tree.entries_ids (symbols : SymbolTable) (entry : String) (tree : Tree) :
    (tree.entries symbols entry).map TypeEntry.id = tree.postorder := by
  cases tree with
  | program node decls =>
    have hdecls : (decls.flatMap (Decl.entries symbols entry)).map TypeEntry.id =
        decls.flatMap Decl.postorder := by
      rw [List.map_flatMap]
      exact congrArg decls.flatMap (funext (Decl.entries_ids symbols entry))
    simp only [Tree.entries, List.map_append, hdecls]
    rfl
  | error node message => rfl

namespace TypeTable

theorem get?_insert_of_ne (table : TypeTable) {id id' : NodeId} (h : id ≠ id') (ty : Ty) :
    (table.insert id' ty).2.get? id = table.get? id := by
  unfold insert
  split
  · rfl
  · simp [get?, List.lookup_cons, beq_eq_false_iff_ne.2 h]

theorem get?_insert_of_none {table : TypeTable} {id : NodeId} (h : table.get? id = none) (ty : Ty) :
    (table.insert id ty).2.get? id = some ty := by
  have hnew : table.contains id = false := by rw [contains, h]; rfl
  rw [insert, hnew]
  exact List.lookup_cons_self

theorem get?_insert_of_some {table : TypeTable} {id : NodeId} {ty : Ty}
    (h : table.get? id = some ty) (id' : NodeId) (ty' : Ty) :
    (table.insert id' ty').2.get? id = some ty := by
  by_cases heq : id = id'
  · subst heq
    have hold : table.contains id = true := by rw [contains, h]; rfl
    rw [insert, hold]
    exact h
  · rw [get?_insert_of_ne table heq, h]

def insertAll (table : TypeTable) (types : List (NodeId × Ty)) : TypeTable :=
  types.foldl (fun table entry => (table.insert entry.1 entry.2).2) table

theorem get?_insertAll_of_some {id : NodeId} {ty : Ty} (types : List (NodeId × Ty))
    {table : TypeTable} (h : table.get? id = some ty) :
    (table.insertAll types).get? id = some ty := by
  induction types generalizing table with
  | nil => exact h
  | cons entry types ih => exact ih (get?_insert_of_some h entry.1 entry.2)

theorem get?_insertAll_of_mem {types : List (NodeId × Ty)} (hnodup : (types.map Prod.fst).Nodup)
    {table : TypeTable} (hnew : ∀ entry ∈ types, table.get? entry.1 = none) {entry : NodeId × Ty}
    (h : entry ∈ types) : (table.insertAll types).get? entry.1 = some entry.2 := by
  induction types generalizing table with
  | nil => exact absurd h List.not_mem_nil
  | cons head types ih =>
    rw [List.map_cons, List.nodup_cons] at hnodup
    rcases List.mem_cons.1 h with rfl | hrest
    · exact get?_insertAll_of_some types
        (get?_insert_of_none (hnew _ List.mem_cons_self) entry.2)
    · refine ih hnodup.2 ?_ hrest
      intro other hother
      have hne : other.1 ≠ head.1 := by
        intro heq
        exact hnodup.1 (heq ▸ List.mem_map_of_mem hother)
      rw [get?_insert_of_ne table hne]
      exact hnew other (List.mem_cons_of_mem _ hother)

theorem get?_ofList {types : List (NodeId × Ty)} (hnodup : (types.map Prod.fst).Nodup)
    {entry : NodeId × Ty} (h : entry ∈ types) : (ofList types).get? entry.1 = some entry.2 :=
  get?_insertAll_of_mem hnodup (fun _ _ => rfl) h

end TypeTable

/-- A tree whose nodes all have numbers of their own gets all its types entered. -/
theorem check_get? {symbols : SymbolTable} {entry : String} {tree : Tree}
    (hnodup : tree.postorder.Nodup) {x : TypeEntry} (h : x ∈ tree.entries symbols entry) :
    (check symbols entry tree).types.get? x.id = some x.ty := by
  have hmem : (x.id, x.ty) ∈ (tree.entries symbols entry).map fun e => (e.id, e.ty) :=
    List.mem_map_of_mem h
  refine TypeTable.get?_ofList ?_ hmem
  rw [List.map_map]
  exact Tree.entries_ids symbols entry tree ▸ hnodup

end MipsCompiler
