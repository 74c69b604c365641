import MipsCompiler.Proofs.Flow
import MipsCompiler.Proofs.Lowering.Layout
import MipsCompiler.Proofs.Parts

set_option autoImplicit false

/-!
# Emitted code

What lowering emits, in terms of its control flow. The code of an expression is straight: control
goes through it from its first line to its last, past at most one line at each comparison of single
precision numbers. The code of a statement is put together from straight code, jumps and labels.
-/

namespace MipsCompiler

open Lower (perform performIf)

/-- Instructions that name no label, have the next line for their only successor and leave `$sp`
alone. -/
def Instr.isPlain : Instr → Bool
  | immediate _ target _ _ => decide (target ≠ .sp)
  | loadWord _ _ _ => true
  | storeWord _ _ _ => true
  | loadSingle _ _ _ => true
  | storeSingle _ _ _ => true
  | constant _ _ => true
  | singleConstant _ _ => true
  | word _ _ _ _ => true
  | single _ _ _ _ => true
  | testSingle _ _ _ => true
  | _ => false

/-- A step that moves words between the stack and registers. `allowed` limits the words that are
dropped at once. -/
def StackOp.Moves (allowed : Nat → Prop) : StackOp → Prop
  | pushWord r | pushSingle r | popWord r | popSingle r => r.isGenerated
  | drop words => allowed words
  | handOver _ => False

theorem StackOp.depthAfter_ok {op : StackOp} {before after : Nat} :
    op.depthAfter before = .ok after ↔
      op.fits ∧ op.taken ≤ before ∧ after = before - op.taken + op.given := by
  unfold depthAfter
  cases op.fits with
  | false => simp
  | true =>
    by_cases h : op.taken ≤ before <;> simp [h, eq_comm]

theorem Instr.silent_of_isPlain {instruction : Instr} (h : instruction.isPlain)
    (hgenerated : instruction.isGenerated) : (Line.instr instruction).Silent := by
  refine ⟨_, rfl, ?_, hgenerated⟩
  cases instruction with
  | loadAddress | branchFlag | branchEqual | jump | jumpLink | jumpRegister | service | syscall =>
    nomatch h
  | _ => rfl

theorem StackOp.silent_of_moves {allowed : Nat → Prop} {op : StackOp} (h : op.Moves allowed) :
    ∀ line ∈ op.lines, line.Silent := by
  have hregs {r : Reg} (hr : r.isGenerated) : [r, .sp].all Reg.isGenerated := by
    simpa using ⟨hr, rfl⟩
  cases op with
  | handOver => exact h.elim
  | drop words =>
    simp only [lines]
    split
    · exact fun _ hline => absurd hline List.not_mem_nil
    · exact List.forall_mem_singleton.2 ⟨_, rfl, rfl, rfl⟩
  | pushWord | pushSingle =>
    refine List.forall_mem_cons.2 ⟨⟨_, rfl, rfl, rfl⟩, ?_⟩
    exact List.forall_mem_singleton.2 ⟨_, rfl, rfl, hregs h⟩
  | popWord | popSingle =>
    refine List.forall_mem_cons.2 ⟨⟨_, rfl, rfl, hregs h⟩, ?_⟩
    exact List.forall_mem_singleton.2 ⟨_, rfl, rfl, rfl⟩

/-- Straight code from one state of lowering to another, with the functions that it calls. -/
inductive Straight (body : Body) (allowed : Nat → Prop) :
    LowerState → Code → List SymbolId → LowerState → Prop
  | nil {s : LowerState} : Straight body allowed s [] [] s
  | op {s : LowerState} {op : StackOp} {depth : Nat} :
      op.depthAfter s.depth = .ok depth → op.Moves allowed →
      Straight body allowed s op.lines [] { s with depth := depth }
  | plain {s : LowerState} {instruction : Instr} :
      instruction.isPlain → instruction.isGenerated →
      Straight body allowed s [.instr instruction] [] s
  | address {s : LowerState} {id : SymbolId} {instruction : Instr} :
      body.storage.addressInstr? .t0 id = some instruction →
      Straight body allowed s [.instr instruction] [] s
  | call {s : LowerState} {callee : SymbolId} :
      Straight body allowed s
        [.instr (.jumpLink ((body.env.symbols.get callee).callLabel body.env.entry))] [callee] s
  | choose {s : LowerState} {flag : Bool} {label : String} :
      label = s.label (body.innerName "compare") →
      Straight body allowed s
        [.instr (.branchFlag flag label), .instr (.constant .t0 0), .label label] []
        (s.request (body.innerName "compare"))
  | append {s t u : LowerState} {code code' : Code} {callees callees' : List SymbolId} :
      Straight body allowed s code callees t → Straight body allowed t code' callees' u →
      Straight body allowed s (code ++ code') (callees ++ callees') u

section

variable {body : Body} {allowed : Nat → Prop} {s t u : LowerState} {code : Code}

theorem Straight.perform {op : StackOp} (h : perform op s = .ok code t) (hop : op.Moves allowed) :
    Straight body allowed s code [] t := by
  obtain ⟨depth, hdepth, rfl, rfl⟩ := Lower.perform_ok.1 h
  exact .op hdepth hop

theorem Straight.performIf {condition : Bool} {op : StackOp}
    (h : performIf condition op s = .ok code t) (hop : op.Moves allowed) :
    Straight body allowed s code [] t := by
  rcases Lower.performIf_ok.1 h with ⟨_, hperform⟩ | ⟨_, rfl, rfl⟩
  · exact .perform hperform hop
  · exact .nil

theorem Literal.lower_straight {value : Literal} (h : value.lower s = .ok code t) :
    Straight body allowed s code [] t := by
  cases value with
  | int | bool | float =>
    simp only [Literal.lower, bind_ok, pure_ok] at h
    obtain ⟨push, _, hpush, rfl, rfl⟩ := h
    exact .append (.plain rfl rfl) (.perform hpush rfl)

namespace Body

theorem combineWords_straight {op : WordOp} (h : combineWords op s = .ok code t) :
    Straight body allowed s code [] t := by
  simp only [combineWords, bind_ok, pure_ok] at h
  obtain ⟨right, _, hright, left, _, hleft, push, _, hpush, rfl, rfl⟩ := h
  exact .append (.append (.perform hright rfl) (.perform hleft rfl))
    (.append (.plain rfl rfl) (.perform hpush rfl))

theorem combineSingles_straight {op : SingleOp} (h : combineSingles op s = .ok code t) :
    Straight body allowed s code [] t := by
  simp only [combineSingles, bind_ok, pure_ok] at h
  obtain ⟨right, _, hright, left, _, hleft, push, _, hpush, rfl, rfl⟩ := h
  exact .append (.append (.perform hright rfl) (.perform hleft rfl))
    (.append (.plain rfl rfl) (.perform hpush rfl))

/-- The label is requested before the result is pushed, and stands before that in the code too. -/
theorem compareSingles_straight {comparison : Comparison}
    (h : body.compareSingles comparison s = .ok code t) : Straight body allowed s code [] t := by
  simp only [compareSingles, bind_ok, pure_ok, Body.requestLabel_ok, and_assoc, exists_and_left,
    exists_eq_left] at h
  obtain ⟨right, _, hright, left, u, hleft, push, _, hpush, rfl, rfl⟩ := h
  have hpops : Straight body allowed s (right ++ left) [] u :=
    .append (.perform hright rfl) (.perform hleft rfl)
  have htest : Straight body allowed u
      [.instr (.testSingle comparison.test.1 comparison.test.2.1 comparison.test.2.2.1),
        .instr (.constant .t0 1)] [] u :=
    .append (.plain rfl (by cases comparison <;> rfl)) (.plain rfl rfl)
  exact .append (.append hpops (.append htest (.choose rfl))) (.perform hpush rfl)

theorem combine_straight {pos : Position} {op : BinaryOp} {operand : Ty}
    (h : body.combine pos op operand s = .ok code t) : Straight body allowed s code [] t := by
  unfold combine at h
  split at h
  · cases op with
    | add | sub | mul | div => exact combineSingles_straight h
    | compare comparison => exact compareSingles_straight h
    | and | or => exact absurd h Lower.refuse_ok
  · exact combineWords_straight h

theorem load_straight {pos : Position} {ty : Ty} (h : load pos ty s = .ok code t) :
    Straight body allowed s code [] t := by
  simp only [load, bind_ok] at h
  obtain ⟨pop, u, hpop, h⟩ := h
  cases ty with
  | int | bool | float =>
    simp only [bind_ok, pure_ok] at h
    obtain ⟨push, _, hpush, rfl, rfl⟩ := h
    exact .append (.perform hpop rfl) (.append (.plain rfl rfl) (.perform hpush rfl))
  | _ => exact absurd h Lower.refuse_ok

theorem elementSize_keeps {pos : Position} {ty : Ty} {size : Nat}
    (h : elementSize pos ty s = .ok size t) : t = s := by
  unfold elementSize at h
  split at h
  · exact (Lower.ofExcept_ok.1 h).2
  · exact absurd h Lower.refuse_ok

theorem select_straight {size : Nat} (h : select size s = .ok code t) :
    Straight body allowed s code [] t := by
  simp only [select, bind_ok, pure_ok] at h
  obtain ⟨offset, _, hoffset, base, u, hbase, push, _, hpush, rfl, rfl⟩ := h
  have hscale : Straight body allowed u [.instr (.constant .t2 size),
      .instr (.word .mul .t1 .t1 .t2), .instr (.word .add .t0 .t0 .t1)] [] u :=
    .append (.plain rfl rfl) (.append (.plain rfl rfl) (.plain rfl rfl))
  exact .append (.append (.append (.perform hoffset rfl) (.perform hbase rfl)) hscale)
    (.perform hpush rfl)

theorem invert_straight (h : invert s = .ok code t) : Straight body allowed s code [] t := by
  simp only [invert, bind_ok, pure_ok] at h
  obtain ⟨pop, _, hpop, push, _, hpush, rfl, rfl⟩ := h
  exact .append (.perform hpop rfl) (.append (.plain rfl rfl) (.perform hpush rfl))

theorem pushAddress_straight {pos : Position} {id : SymbolId}
    (h : body.pushAddress pos id s = .ok code t) : Straight body allowed s code [] t := by
  unfold pushAddress at h
  cases haddress : body.storage.addressInstr? .t0 id with
  | none =>
    rw [haddress] at h
    exact absurd h Lower.refuse_ok
  | some load =>
    simp only [haddress, bind_ok, pure_ok] at h
    obtain ⟨push, _, hpush, rfl, rfl⟩ := h
    exact .append (.address haddress) (.perform hpush rfl)

theorem jumpTo_straight {callee : SymbolId} {words : Nat}
    (h : body.jumpTo callee words s = .ok code t) (hwords : allowed words) :
    Straight body allowed s code [callee] t := by
  simp only [jumpTo, bind_ok, pure_ok] at h
  obtain ⟨release, _, hrelease, push, _, hpush, rfl, rfl⟩ := h
  exact .append .call (.append (.perform hrelease hwords) (.performIf hpush rfl))

theorem store_straight {ty : Ty} (h : store ty s = .ok code t) :
    Straight body allowed s code [] t := by
  unfold store at h
  split at h
  all_goals
    simp only [bind_ok, pure_ok] at h
    obtain ⟨value, _, hvalue, place, _, hplace, rfl, rfl⟩ := h
    exact .append (.append (.perform hvalue rfl) (.perform hplace rfl)) (.plain rfl rfl)

end Body

/-- The words that a call of `e` drops are allowed. -/
def Expr.Drops (body : Body) (allowed : Nat → Prop) : Expr → Prop
  | .call _ _ args => ∀ s code words t,
    Expr.lowerAll body args s = .ok (code, words) t → allowed words
  | _ => True

theorem Expr.drops_true (body : Body) (e : Expr) : e.Drops body fun _ => True := by
  cases e with
  | call => exact fun _ _ _ _ _ => trivial
  | _ => trivial

def Phrase.Lowered (body : Body) (s : LowerState) (code : Code) (t : LowerState) : Phrase → Prop
  | .expr e => e.lower body s = .ok code t
  | .args es => ∃ words, Expr.lowerAll body es s = .ok (code, words) t

theorem Phrase.straight {phrase : Phrase} (h : phrase.Lowered body s code t)
    (hdrops : ∀ e ∈ phrase.subexprs, e.Drops body allowed) :
    Straight body allowed s code phrase.callees t := by
  induction phrase using Phrase.induct generalizing s code t with
  | literal node value => exact Literal.lower_straight h
  | address node symbol => exact Body.pushAddress_straight h
  | deref node operand ih =>
    simp only [Lowered, Expr.lower, bind_ok, pure_ok, Environment.typeOf_ok, and_assoc,
      exists_and_left, exists_eq_left] at h
    obtain ⟨place, u, hplace, ty, _, load, _, hload, rfl, rfl⟩ := h
    have hstraight := (ih hplace (List.forall_mem_cons.1 hdrops).2).append
      (Body.load_straight hload)
    rwa [List.append_nil] at hstraight
  | index node base offset ihbase ihoffset =>
    simp only [Lowered, Expr.lower, bind_ok, pure_ok, Environment.typeOf_ok, and_assoc,
      exists_and_left, exists_eq_left] at h
    obtain ⟨ty, _, size, u, hsize, baseCode, _, hbase, offsetCode, _, hoffset, select, _, hselect,
      rfl, rfl⟩ := h
    obtain ⟨hdbase, hdoffset⟩ := List.forall_mem_append.1 (List.forall_mem_cons.1 hdrops).2
    obtain rfl : u = s := Body.elementSize_keeps hsize
    have hstraight := ((ihbase hbase hdbase).append (ihoffset hoffset hdoffset)).append
      (Body.select_straight hselect)
    rwa [List.append_nil] at hstraight
  | binary node op left right ihleft ihright =>
    simp only [Lowered, Expr.lower, bind_ok, pure_ok, Environment.typeOf_ok, and_assoc,
      exists_and_left, exists_eq_left] at h
    obtain ⟨leftCode, _, hleft, rightCode, _, hright, ty, _, combine, _, hcombine, rfl, rfl⟩ := h
    obtain ⟨hdleft, hdright⟩ := List.forall_mem_append.1 (List.forall_mem_cons.1 hdrops).2
    have hstraight := ((ihleft hleft hdleft).append (ihright hright hdright)).append
      (Body.combine_straight hcombine)
    rwa [List.append_nil] at hstraight
  | not node operand ih =>
    simp only [Lowered, Expr.lower, bind_ok, pure_ok] at h
    obtain ⟨code, _, hcode, invert, _, hinvert, rfl, rfl⟩ := h
    have hstraight := (ih hcode (List.forall_mem_cons.1 hdrops).2).append
      (Body.invert_straight hinvert)
    rwa [List.append_nil] at hstraight
  | call node callee args ih =>
    simp only [Lowered, Expr.lower, bind_ok, pure_ok, Prod.exists] at h
    obtain ⟨code, words, u, hcode, jump, _, hjump, rfl, rfl⟩ := h
    obtain ⟨hcall, hdargs⟩ := List.forall_mem_cons.1 hdrops
    exact (ih ⟨words, hcode⟩ hdargs).append
      (Body.jumpTo_straight hjump (hcall _ _ _ _ hcode))
  | nil =>
    simp only [Lowered, Expr.lowerAll, pure_ok, Prod.mk.injEq] at h
    obtain ⟨_, ⟨rfl, _⟩, rfl⟩ := h
    exact .nil
  | cons e es ih ihs =>
    simp only [Lowered, Expr.lowerAll, bind_ok, pure_ok, Environment.typeOf_ok, Lower.ofExcept_ok,
      Prod.exists, Prod.mk.injEq, and_assoc, exists_and_left, exists_eq_left] at h
    obtain ⟨_, first, u, hfirst, _, _, _, _, rest, words, _, hrest, rfl, _, rfl⟩ := h
    obtain ⟨hdfirst, hdrest⟩ := List.forall_mem_append.1 hdrops
    exact (ih hfirst hdfirst).append (ihs ⟨words, hrest⟩ hdrest)

theorem Expr.straight {e : Expr} (h : e.lower body s = .ok code t)
    (hdrops : ∀ e' ∈ e.subexprs, e'.Drops body allowed) :
    Straight body allowed s code e.callees t :=
  @Phrase.straight _ _ _ _ _ (.expr e) h hdrops

theorem Body.test_straight {condition : Expr} {label : String} {test skip : Code}
    (htest : condition.lower body s = .ok test u) (hskip : skipTo label u = .ok skip t)
    (hdrops : ∀ e ∈ condition.subexprs, e.Drops body allowed) :
    ∃ front, test ++ skip = front ++ [.instr (.branchEqual .t0 .zero label)] ∧
      Straight body allowed s front condition.callees t := by
  simp only [skipTo, bind_ok, pure_ok] at hskip
  obtain ⟨pop, _, hpop, rfl, rfl⟩ := hskip
  have hstraight := (condition.straight htest hdrops).append (.perform hpop rfl)
  rw [List.append_nil] at hstraight
  exact ⟨test ++ pop, (List.append_assoc _ _ _).symm, hstraight⟩

theorem Stmt.call_straight {node : Node} {callee : SymbolId} {args : List Expr}
    (h : (Stmt.call node callee args).lower body s = .ok code t)
    (hdrops : ∀ e ∈ (Expr.call node callee args).subexprs, e.Drops body allowed)
    (hone : allowed 1) :
    Straight body allowed s code (Expr.call node callee args).callees t ∧
      t.depth = s.depth := by
  obtain ⟨h, hdepth⟩ := Lower.balanced_ok.1 h
  simp only [Body.callAsStatement, bind_ok, pure_ok, Prod.exists] at h
  obtain ⟨inner, words, u, hinner, jump, v, hjump, discard, _, hdiscard, rfl, rfl⟩ := h
  have hcall : (Expr.call node callee args).lower body s = .ok (inner ++ jump) v := by
    simp only [Expr.lower, bind_ok, pure_ok, Prod.exists]
    exact ⟨inner, words, u, hinner, jump, v, hjump, rfl, rfl⟩
  have hstraight := (Expr.straight hcall hdrops).append
    (.performIf hdiscard hone)
  rw [List.append_nil] at hstraight
  exact ⟨hstraight, hdepth⟩

theorem Stmt.assign_straight {node : Node} {target source : Expr}
    (h : (Stmt.assign node target source).lower body s = .ok code t)
    (hdrops : ∀ e ∈ target.subexprs ++ source.subexprs, e.Drops body allowed) :
    Straight body allowed s code (target.callees ++ source.callees) t ∧ t.depth = s.depth := by
  obtain ⟨h, hdepth⟩ := Lower.balanced_ok.1 h
  simp only [bind_ok, pure_ok, Environment.typeOf_ok, and_assoc, exists_and_left,
    exists_eq_left] at h
  obtain ⟨place, _, hplace, value, _, hvalue, ty, _, store, _, hstore, rfl, rfl⟩ := h
  obtain ⟨hdtarget, hdsource⟩ := List.forall_mem_append.1 hdrops
  have hstraight := ((target.straight hplace hdtarget).append
    (source.straight hvalue hdsource)).append (Body.store_straight hstore)
  rw [List.append_nil] at hstraight
  exact ⟨hstraight, hdepth⟩

theorem Stmt.ret_straight {node : Node} {value : Expr}
    (h : (Stmt.ret node value).lower body s = .ok code t)
    (hdrops : ∀ e ∈ value.subexprs, e.Drops body allowed) :
    ∃ inner u ty, code = inner ++ [.instr (.jump body.finish)] ∧
      Straight body allowed s inner value.callees u ∧
      body.env.types.get? value.node.id = some ty ∧
      u.depth = (s.depth + if ty.isVoid then 0 else 1) ∧ t = { u with depth := s.depth } := by
  obtain ⟨h, hdepth⟩ := Lower.balanced_ok.1 h
  simp only [bind_ok, pure_ok, Environment.typeOf_ok, and_assoc, exists_and_left,
    exists_eq_left] at h
  obtain ⟨inner, u, hinner, ty, hty, leave, v, hleave, rfl, rfl⟩ := h
  have hstraight := value.straight hinner hdrops
  unfold Body.leave at hleave
  cases hvoid : ty.isVoid with
  | true =>
    simp only [hvoid, if_true, pure_ok] at hleave
    obtain ⟨rfl, rfl⟩ := hleave
    refine ⟨inner, t, ty, rfl, hstraight, hty, by simp [hvoid, hdepth], ?_⟩
    rw [← hdepth]
  | false =>
    simp only [hvoid, Bool.false_eq_true, if_false, Lower.perform_ok] at hleave
    obtain ⟨depth, hafter, rfl, rfl⟩ := hleave
    refine ⟨inner, u, ty, rfl, hstraight, hty, ?_, ?_⟩
    · obtain ⟨_, hle, hresult⟩ := StackOp.depthAfter_ok.1 hafter
      simp only [StackOp.taken, StackOp.given] at hle hresult hdepth
      simp only [hvoid, Bool.false_eq_true, if_false]
      omega
    · simp only at hdepth
      rw [hdepth]

/-- The parts of a body that do something: conditions are evaluated, and calls, assignments and
returns are executed. -/
inductive Part where
  | condition (e : Expr)
  | act (s : Stmt)

inductive Event where
  | starts (part : Part)
  | ends (part : Part)

structure MarkedLine where
  line : Line
  events : List Event

abbrev MarkedCode := List MarkedLine

namespace MarkedCode

def lines (code : MarkedCode) : Code :=
  code.map MarkedLine.line

def unmarked (code : Code) : MarkedCode :=
  code.map fun line => ⟨line, []⟩

def startWith (event : Event) : MarkedCode → MarkedCode
  | [] => []
  | first :: rest => ⟨first.line, event :: first.events⟩ :: rest

def endWith (event : Event) : MarkedCode → MarkedCode
  | [] => []
  | [last] => [⟨last.line, last.events ++ [event]⟩]
  | first :: rest => first :: endWith event rest

/-- The code of a part: the part starts on its first line and ends on its last. -/
def ofPart (part : Part) (code : Code) : MarkedCode :=
  startWith (.starts part) (endWith (.ends part) (unmarked code))

@[simp] theorem lines_append (a b : MarkedCode) : lines (a ++ b) = lines a ++ lines b :=
  List.map_append

@[simp] theorem lines_nil : lines [] = [] :=
  rfl

@[simp] theorem lines_unmarked (code : Code) : lines (unmarked code) = code := by
  simp [lines, unmarked, Function.comp_def]

theorem unmarked_append (a b : Code) : unmarked (a ++ b) = unmarked a ++ unmarked b :=
  List.map_append

theorem lines_startWith (event : Event) (code : MarkedCode) :
    lines (startWith event code) = lines code := by
  cases code <;> rfl

theorem lines_endWith (event : Event) (code : MarkedCode) :
    lines (endWith event code) = lines code := by
  fun_induction endWith event code with
  | case1 => rfl
  | case2 last => rfl
  | case3 first rest _ ih => exact congrArg (first.line :: ·) ih

@[simp] theorem lines_ofPart (part : Part) (code : Code) : lines (ofPart part code) = code := by
  rw [ofPart, lines_startWith, lines_endWith, lines_unmarked]

end MarkedCode

open MarkedCode (unmarked ofPart)

/-- Statements whose code is that of one part. -/
def Stmt.isAct : Stmt → Bool
  | .call _ _ _ => true
  | .assign _ _ _ => true
  | .ret _ _ => true
  | _ => false

/-- What a phrase is lowered to, part by part. -/
inductive Emits (body : Body) : LowerState → StmtPhrase → MarkedCode → LowerState → Prop
  | var {s : LowerState} {decl : VarDecl} : Emits body s (.stmt (.var decl)) [] s
  | act {s t : LowerState} {stmt : Stmt} {code : Code} :
      stmt.isAct → stmt.lower body s = .ok code t →
      Emits body s (.stmt stmt) (ofPart (.act stmt) code) t
  | branch {s u v w t : LowerState} {node : Node} {condition : Expr} {thenBlock elseBlock : Block}
      {otherwise finish : String} {test skip : Code} {taken other : MarkedCode} :
      otherwise = s.label (body.innerName "else") →
      finish = (s.request (body.innerName "else")).label (body.innerName "ifelse.end") →
      condition.lower body ((s.request (body.innerName "else")).request
        (body.innerName "ifelse.end")) = .ok test u →
      Body.skipTo otherwise u = .ok skip v →
      Emits body v (.block thenBlock) taken w → Emits body w (.block elseBlock) other t →
      v.depth = s.depth →
      Emits body s (.stmt (.branch node condition thenBlock elseBlock))
        (ofPart (.condition condition) (test ++ skip) ++ taken ++
          unmarked [.instr (.jump finish), .label otherwise] ++ other ++ unmarked [.label finish]) t
  | loop {s u v t : LowerState} {node : Node} {condition : Expr} {inner : Block}
      {head finish : String} {test skip : Code} {repeated : MarkedCode} :
      head = s.label (body.innerName "while") →
      finish = (s.request (body.innerName "while")).label (body.innerName "while.end") →
      condition.lower body ((s.request (body.innerName "while")).request
        (body.innerName "while.end")) = .ok test u →
      Body.skipTo finish u = .ok skip v → Emits body v (.block inner) repeated t →
      v.depth = s.depth →
      Emits body s (.stmt (.loop node condition inner))
        (unmarked [.label head] ++ ofPart (.condition condition) (test ++ skip) ++ repeated ++
          unmarked [.instr (.jump head), .label finish]) t
  | block {s t : LowerState} {node : Node} {stmts : List Stmt} {code : MarkedCode} :
      Emits body s (.stmts stmts) code t → Emits body s (.block (.mk node stmts)) code t
  | nil {s : LowerState} : Emits body s (.stmts []) [] s
  | cons {s t u : LowerState} {stmt : Stmt} {stmts : List Stmt} {first rest : MarkedCode} :
      Emits body s (.stmt stmt) first t → Emits body t (.stmts stmts) rest u →
      Emits body s (.stmts (stmt :: stmts)) (first ++ rest) u

def StmtPhrase.Lowered (body : Body) (s : LowerState) (code : Code) (t : LowerState) :
    StmtPhrase → Prop
  | .stmt x => x.lower body s = .ok code t
  | .stmts xs => Stmt.lowerAll body xs s = .ok code t
  | .block b => b.lower body s = .ok code t

theorem Stmt.emits_of_isAct {stmt : Stmt} (hact : stmt.isAct)
    (h : stmt.lower body s = .ok code t) :
    ∃ marked, Emits body s (.stmt stmt) marked t ∧ marked.lines = code :=
  ⟨_, .act hact h, MarkedCode.lines_ofPart _ _⟩

theorem StmtPhrase.emits {phrase : StmtPhrase} (h : phrase.Lowered body s code t) :
    t.depth = s.depth ∧ ∃ marked, Emits body s phrase marked t ∧ marked.lines = code := by
  induction phrase using StmtPhrase.induct generalizing s code t with
  | var decl =>
    obtain ⟨h, hdepth⟩ := Lower.balanced_ok.1 h
    obtain ⟨rfl, rfl⟩ := pure_ok.1 h
    exact ⟨rfl, [], .var, rfl⟩
  | call node callee args =>
    exact ⟨(Lower.balanced_ok.1 h).2, Stmt.emits_of_isAct rfl h⟩
  | assign node target source =>
    exact ⟨(Lower.balanced_ok.1 h).2, Stmt.emits_of_isAct rfl h⟩
  | branch node condition thenBlock elseBlock ihthen ihelse =>
    obtain ⟨h, hdepth⟩ := Lower.balanced_ok.1 h
    simp only [bind_ok, pure_ok, Body.requestLabel_ok, and_assoc, exists_and_left,
      exists_eq_left] at h
    obtain ⟨test, u, htest, skip, v, hskip, taken, w, htaken, other, _, hother, rfl, rfl⟩ := h
    obtain ⟨hw, taken, hethen, rfl⟩ := ihthen htaken
    obtain ⟨ht, other, heelse, rfl⟩ := ihelse hother
    have hv : v.depth = s.depth := hw.symm.trans (ht.symm.trans hdepth)
    exact ⟨hdepth, _, .branch rfl rfl htest hskip hethen heelse hv, by simp⟩
  | loop node condition inner ih =>
    obtain ⟨h, hdepth⟩ := Lower.balanced_ok.1 h
    simp only [bind_ok, pure_ok, Body.requestLabel_ok, and_assoc, exists_and_left,
      exists_eq_left] at h
    obtain ⟨test, u, htest, skip, v, hskip, repeated, _, hrepeated, rfl, rfl⟩ := h
    obtain ⟨ht, repeated, heinner, rfl⟩ := ih hrepeated
    exact ⟨hdepth, _, .loop rfl rfl htest hskip heinner (ht.symm.trans hdepth), by simp⟩
  | ret node value =>
    exact ⟨(Lower.balanced_ok.1 h).2, Stmt.emits_of_isAct rfl h⟩
  | block node stmts ih =>
    obtain ⟨hdepth, marked, hemits, hlines⟩ := ih h
    exact ⟨hdepth, marked, .block hemits, hlines⟩
  | nil =>
    obtain ⟨rfl, rfl⟩ := pure_ok.1 h
    exact ⟨rfl, [], .nil, rfl⟩
  | cons stmt stmts ih ihs =>
    simp only [Lowered, Stmt.lowerAll, bind_ok, pure_ok] at h
    obtain ⟨first, u, hfirst, rest, _, hrest, rfl, rfl⟩ := h
    obtain ⟨hu, first, hefirst, rfl⟩ := ih hfirst
    obtain ⟨ht, rest, herest, rfl⟩ := ihs hrest
    exact ⟨ht.trans hu, _, .cons hefirst herest, by simp⟩

theorem Emits.exists_infix {phrase : StmtPhrase} {marked : MarkedCode}
    (h : Emits body s phrase marked t) {stmt : Stmt} (hstmt : stmt ∈ phrase.substmts)
    (hact : stmt.isAct) :
    ∃ u inner v, stmt.lower body u = .ok inner v ∧ inner <:+: marked.lines := by
  induction h with
  | var =>
    cases List.mem_singleton.1 hstmt
    nomatch hact
  | @act s t own code hown hlower =>
    have hsub : own.substmts = [own] := by
      cases own with
      | call | assign | ret => rfl
      | var | branch | loop => nomatch hown
    rw [StmtPhrase.substmts, hsub] at hstmt
    cases List.mem_singleton.1 hstmt
    exact ⟨s, code, t, hlower, by simp⟩
  | branch _ _ _ _ _ _ _ ihthen ihelse =>
    rcases List.mem_cons.1 hstmt with rfl | hstmt
    · nomatch hact
    simp only [MarkedCode.lines_append]
    rcases List.mem_append.1 hstmt with hstmt | hstmt
    · obtain ⟨u, inner, v, hlower, hinfix⟩ := ihthen hstmt
      refine ⟨u, inner, v, hlower, hinfix.trans ?_⟩
      simp only [List.append_assoc]
      exact List.infix_append' _ _ _
    · obtain ⟨u, inner, v, hlower, hinfix⟩ := ihelse hstmt
      exact ⟨u, inner, v, hlower, hinfix.trans (List.infix_append _ _ _)⟩
  | loop _ _ _ _ _ _ ih =>
    rcases List.mem_cons.1 hstmt with rfl | hstmt
    · nomatch hact
    obtain ⟨u, inner, v, hlower, hinfix⟩ := ih hstmt
    simp only [MarkedCode.lines_append]
    exact ⟨u, inner, v, hlower, hinfix.trans (List.infix_append _ _ _)⟩
  | block _ ih => exact ih hstmt
  | nil => exact absurd hstmt List.not_mem_nil
  | cons _ _ ih ih' =>
    rw [MarkedCode.lines_append]
    rcases List.mem_append.1 hstmt with hstmt | hstmt
    · obtain ⟨u, inner, v, hlower, hinfix⟩ := ih hstmt
      exact ⟨u, inner, v, hlower, List.infix_append_of_infix_left hinfix⟩
    · obtain ⟨u, inner, v, hlower, hinfix⟩ := ih' hstmt
      exact ⟨u, inner, v, hlower, List.infix_append_of_infix_right hinfix⟩

end

/-- The code holds the code of an expression. -/
def Expr.IsIn (e : Expr) (body : Body) (code : Code) : Prop :=
  ∃ u inner v, e.lower body u = .ok inner v ∧ inner <:+: code

section

variable {body : Body} {s t : LowerState} {a b code : Code} {e : Expr}

theorem Expr.IsIn.self (h : e.lower body s = .ok code t) : e.IsIn body code :=
  ⟨s, code, t, h, List.infix_rfl⟩

theorem Expr.IsIn.left (h : e.IsIn body a) : e.IsIn body (a ++ b) := by
  obtain ⟨u, inner, v, hlower, hinfix⟩ := h
  exact ⟨u, inner, v, hlower, List.infix_append_of_infix_left hinfix⟩

theorem Expr.IsIn.right (h : e.IsIn body b) : e.IsIn body (a ++ b) := by
  obtain ⟨u, inner, v, hlower, hinfix⟩ := h
  exact ⟨u, inner, v, hlower, List.infix_append_of_infix_right hinfix⟩

theorem Phrase.isIn {phrase : Phrase} (h : phrase.Lowered body s code t)
    (he : e ∈ phrase.subexprs) : e.IsIn body code := by
  induction phrase using Phrase.induct generalizing s code t with
  | literal | address =>
    cases List.mem_singleton.1 he
    exact .self h
  | deref node operand ih =>
    rcases List.mem_cons.1 he with rfl | he
    · exact .self h
    simp only [Lowered, Expr.lower, bind_ok, pure_ok] at h
    obtain ⟨place, _, hplace, _, _, _, load, _, _, rfl, _⟩ := h
    exact (ih hplace he).left
  | index node base offset ihbase ihoffset =>
    rcases List.mem_cons.1 he with rfl | he
    · exact .self h
    simp only [Lowered, Expr.lower, bind_ok, pure_ok] at h
    obtain ⟨_, _, _, _, _, _, baseCode, _, hbase, offsetCode, _, hoffset, _, _, _, rfl, _⟩ := h
    rcases List.mem_append.1 he with he | he
    · exact (ihbase hbase he).left.left
    · exact (ihoffset hoffset he).right.left
  | binary node op left right ihleft ihright =>
    rcases List.mem_cons.1 he with rfl | he
    · exact .self h
    simp only [Lowered, Expr.lower, bind_ok, pure_ok] at h
    obtain ⟨leftCode, _, hleft, rightCode, _, hright, _, _, _, _, _, _, rfl, _⟩ := h
    rcases List.mem_append.1 he with he | he
    · exact (ihleft hleft he).left.left
    · exact (ihright hright he).right.left
  | not node operand ih =>
    rcases List.mem_cons.1 he with rfl | he
    · exact .self h
    simp only [Lowered, Expr.lower, bind_ok, pure_ok] at h
    obtain ⟨inner, _, hinner, _, _, _, rfl, _⟩ := h
    exact (ih hinner he).left
  | call node callee args ih =>
    rcases List.mem_cons.1 he with rfl | he
    · exact .self h
    simp only [Lowered, Expr.lower, bind_ok, pure_ok, Prod.exists] at h
    obtain ⟨inner, words, _, hinner, _, _, _, rfl, _⟩ := h
    exact (ih ⟨words, hinner⟩ he).left
  | nil => exact absurd he List.not_mem_nil
  | cons e es ih ihs =>
    simp only [Lowered, Expr.lowerAll, bind_ok, pure_ok, Environment.typeOf_ok, Lower.ofExcept_ok,
      Prod.exists, Prod.mk.injEq, and_assoc, exists_and_left, exists_eq_left] at h
    obtain ⟨_, first, u, hfirst, _, _, _, _, rest, words, _, hrest, rfl, _⟩ := h
    rcases List.mem_append.1 he with he | he
    · exact (ih hfirst he).left
    · exact (ihs ⟨words, hrest⟩ he).right

theorem StmtPhrase.isIn {phrase : StmtPhrase} (h : phrase.Lowered body s code t)
    (he : e ∈ phrase.exprs) : e.IsIn body code := by
  have hexpr {own : Expr} {u v : LowerState} {inner : Code} (h : own.lower body u = .ok inner v)
      (he : e ∈ own.subexprs) : e.IsIn body inner :=
    @Phrase.isIn body u v inner e (.expr own) h he
  induction phrase using StmtPhrase.induct generalizing s code t with
  | var | nil => exact absurd he List.not_mem_nil
  | call node callee args =>
    obtain ⟨h, _⟩ := Lower.balanced_ok.1 h
    simp only [Body.callAsStatement, bind_ok, pure_ok, Prod.exists] at h
    obtain ⟨inner, words, u, hinner, jump, v, hjump, _, _, _, rfl, _⟩ := h
    have hcall : (Expr.call node callee args).lower body s = .ok (inner ++ jump) v := by
      simp only [Expr.lower, bind_ok, pure_ok, Prod.exists]
      exact ⟨inner, words, u, hinner, jump, v, hjump, rfl, rfl⟩
    exact (hexpr hcall he).left
  | assign node target source =>
    obtain ⟨h, _⟩ := Lower.balanced_ok.1 h
    simp only [bind_ok, pure_ok] at h
    obtain ⟨place, _, hplace, value, _, hvalue, _, _, _, _, _, _, rfl, _⟩ := h
    rcases List.mem_append.1 he with he | he
    · exact (hexpr hplace he).left.left
    · exact (hexpr hvalue he).right.left
  | branch node condition thenBlock elseBlock ihthen ihelse =>
    obtain ⟨h, _⟩ := Lower.balanced_ok.1 h
    simp only [bind_ok, pure_ok, Body.requestLabel_ok, and_assoc, exists_and_left,
      exists_eq_left] at h
    obtain ⟨test, _, htest, skip, _, _, taken, _, htaken, other, _, hother, rfl, _⟩ := h
    rcases List.mem_append.1 he with he | he
    · rcases List.mem_append.1 he with he | he
      · exact (hexpr htest he).left.left.left.left.left
      · exact (ihthen htaken he).right.left.left.left
    · exact (ihelse hother he).right.left
  | loop node condition inner ih =>
    obtain ⟨h, _⟩ := Lower.balanced_ok.1 h
    simp only [bind_ok, pure_ok, Body.requestLabel_ok, and_assoc, exists_and_left,
      exists_eq_left] at h
    obtain ⟨test, _, htest, skip, _, _, repeated, _, hrepeated, rfl, _⟩ := h
    rcases List.mem_append.1 he with he | he
    · exact (Expr.IsIn.right (a := [_]) (hexpr htest he)).left.left.left
    · exact (ih hrepeated he).right.left
  | ret node value =>
    obtain ⟨h, _⟩ := Lower.balanced_ok.1 h
    simp only [bind_ok, pure_ok] at h
    obtain ⟨inner, _, hinner, _, _, _, _, _, _, rfl, _⟩ := h
    exact (hexpr hinner he).left
  | block node stmts ih => exact ih h he
  | cons stmt stmts ih ihs =>
    simp only [Lowered, Stmt.lowerAll, bind_ok, pure_ok] at h
    obtain ⟨first, _, hfirst, rest, _, hrest, rfl, _⟩ := h
    rcases List.mem_append.1 he with he | he
    · exact (ih hfirst he).left
    · exact (ihs hrest he).right

end

/-- Between declarations the evaluation stack is empty. -/
theorem Environment.lowerOnto_depth {env : Environment} {storage storage' : Storage}
    {decls : List Decl} {s t : LowerState} {segments : Segments}
    (h : env.lowerOnto storage decls s = .ok (segments, storage') t) : t.depth = s.depth := by
  induction decls generalizing storage s segments with
  | nil =>
    obtain ⟨_, _, rfl⟩ := lowerOnto_nil_ok.1 h
    rfl
  | cons decl decls ih =>
    obtain ⟨own, storage₁, u, rest, hown, hrest, _⟩ := lowerOnto_cons_ok.1 h
    refine (ih hrest).trans ?_
    cases decl with
    | var decl | array decl =>
      obtain ⟨line, hline, _⟩ := lowerDecl_var_ok.1 hown
      obtain ⟨_, _, _, _, rfl⟩ := reserveGlobal_ok.1 hline
      rfl
    | func definition =>
      obtain ⟨code, hcode, _⟩ := lowerDecl_func_ok.1 hown
      obtain ⟨f, inner, _, _, rfl, _, hbody, _⟩ := FunctionSite.lowerFunction_ok.1 hcode
      exact (@StmtPhrase.emits _ _ _ _ (.block definition.body) hbody).1

namespace CompiledFunction

variable {env : Environment} {node : Node} {decls : List Decl} {program : Program}
  (f : CompiledFunction env decls)

theorem emits :
    ∃ marked, Emits f.body f.inside (.block f.definition.body) marked f.behind ∧
      marked.lines = f.code :=
  (@StmtPhrase.emits _ _ _ _ (.block f.definition.body) f.lowered).2

theorem inside_depth : f.inside.depth = 0 :=
  Environment.lowerOnto_depth f.reached

def startAt : Nat :=
  f.ahead.code.length

def bodyAt : Nat :=
  f.startAt + f.opening.length

def finishAt : Nat :=
  f.bodyAt + f.code.length

theorem at_lines (hlower : env.lower (.program node decls) = .ok program) :
    At program.code f.startAt f.lines := by
  obtain ⟨rest, _, _, _, rfl⟩ := f.placed hlower
  exact ⟨f.ahead.code, rest.code, rfl, rfl⟩

theorem code_finishAt (hlower : env.lower (.program node decls) = .ok program) :
    program.code[f.finishAt]? = some (.label f.finish) := by
  have hclosing := (f.at_lines hlower).right.get
  rwa [List.length_append, ← Nat.add_assoc] at hclosing

end CompiledFunction

end MipsCompiler
