import Mathlib.Algebra.Ring.Int.Defs
import MipsCompiler.Proofs.Labels.Program
import MipsCompiler.Proofs.Typing.Paths

set_option autoImplicit false

/-!
# Balance of the stack

On every path through the code of a function `$sp` stays at or below the bottom of the locals, and
at the end label it is there again, or one word below for a value that was returned. The depth that
lowering counts says how far below it is at each line. A value that is returned is no longer
counted, so at the end label the argument is another one: a function with a result has no path that
falls through to it.

Paths are followed for a number of steps, and the induction for a loop is on that number.
-/

namespace MipsCompiler

def ImmediateOp.change (value : Int) : ImmediateOp → Int
  | addi => value
  | addiu => value
  | addu => value
  | subu => -value
  | xori => 0

def Line.stackChange : Line → Int
  | instr (.immediate op target source value) =>
    if target = .sp ∧ source = .sp then op.change value else 0
  | _ => 0

/-- A line, and `$sp` before it as counted from the start of the function. -/
structure Spot where
  index : Nat
  sp : Int

/-- Control can go from one spot to the other. -/
inductive Spot.Step (code : Code) : Spot → Spot → Prop
  | next {i : Nat} {sp : Int} {line : Line} :
      code[i]? = some line → line.fallsThrough → Step code ⟨i, sp⟩ ⟨i + 1, sp + line.stackChange⟩
  | jump {i j : Nat} {sp : Int} {line : Line} {name : String} :
      code[i]? = some line → line.target? = some name → code[j]? = some (.label name) →
      Step code ⟨i, sp⟩ ⟨j, sp + line.stackChange⟩

/-- The spots on the paths from the label `start` up to the label `finish`. -/
inductive OnPath (code : Code) (start finish : String) : Spot → Prop
  | start {i : Nat} : code[i]? = some (.label start) → OnPath code start finish ⟨i, 0⟩
  | step {a b : Spot} :
      OnPath code start finish a → code[a.index]? ≠ some (.label finish) → Spot.Step code a b →
      OnPath code start finish b

/-- The spots within `n` steps are all in `P`. -/
def Safe (code : Code) (finish : String) (P : Spot → Prop) : Nat → Spot → Prop
  | 0, a => P a
  | n + 1, a => P a ∧ (code[a.index]? ≠ some (.label finish) →
      ∀ b, Spot.Step code a b → Safe code finish P n b)

namespace Safe

variable {code : Code} {start finish : String} {P : Spot → Prop} {a : Spot} {m n : Nat}

theorem here (h : Safe code finish P n a) : P a := by
  cases n with
  | zero => exact h
  | succ n => exact h.1

theorem pred (h : Safe code finish P (n + 1) a) : Safe code finish P n a := by
  induction n generalizing a with
  | zero => exact h.1
  | succ n ih => exact ⟨h.1, fun hne b hstep => ih (h.2 hne b hstep)⟩

theorem mono (h : Safe code finish P n a) (hle : m ≤ n) : Safe code finish P m a := by
  induction hle with
  | refl => exact h
  | step _ ih => exact ih h.pred

theorem of_steps (ha : P a)
    (h : ∀ m < n, ∀ b, Spot.Step code a b → Safe code finish P m b) : Safe code finish P n a := by
  cases n with
  | zero => exact ha
  | succ n => exact ⟨ha, fun _ => h n (Nat.lt_succ_self n)⟩

theorem of_onPath (hstart : ∀ i, code[i]? = some (.label start) → ∀ n, Safe code finish P n ⟨i, 0⟩)
    (h : OnPath code start finish a) (n : Nat) : Safe code finish P n a := by
  induction h generalizing n with
  | start hi => exact hstart _ hi n
  | step _ hne hstep ih => exact (ih (n + 1)).2 hne _ hstep

end Safe

/-- Where the lines of a function stand: from `first` on, with the body from `body` up to the end
label at `last`. `$sp` is at `bottom` when the locals are reserved, and `words` below at the end
label. -/
structure Extent where
  first : Nat
  body : Nat
  last : Nat
  bottom : Int
  words : Nat
  first_le : first ≤ body

namespace Extent

def height (x : Extent) (depth : Nat) : Int :=
  x.bottom - (wordBytes * depth : Nat)

def Holds (x : Extent) (a : Spot) : Prop :=
  x.first ≤ a.index ∧ a.index ≤ x.last ∧ (x.body ≤ a.index → a.sp ≤ x.bottom) ∧
    (a.index = x.last → a.sp = x.height x.words)

variable {x : Extent} {i : Nat} {sp : Int}

theorem height_le (depth : Nat) : x.height depth ≤ x.bottom := by
  unfold height
  omega

theorem height_zero : x.height 0 = x.bottom :=
  Int.sub_zero _

theorem height_add (depth words : Nat) :
    x.height (depth + words) = x.height depth - (wordBytes * words : Nat) := by
  unfold height
  rw [Nat.mul_add]
  omega

theorem Holds.inside (hi : x.body ≤ i) (hlast : i < x.last) (hsp : sp ≤ x.bottom) :
    x.Holds ⟨i, sp⟩ :=
  ⟨Nat.le_trans x.first_le hi, Nat.le_of_lt hlast, fun _ => hsp,
    fun heq => absurd heq (Nat.ne_of_lt hlast)⟩

theorem Holds.ahead (hfirst : x.first ≤ i) (hi : i < x.body) (hbody : x.body ≤ x.last) :
    x.Holds ⟨i, sp⟩ := by
  refine ⟨hfirst, Nat.le_trans (Nat.le_of_lt hi) hbody, fun hle => ?_, fun heq => ?_⟩
  · exact absurd hle (Nat.not_le_of_lt hi)
  · exact absurd heq (Nat.ne_of_lt (Nat.lt_of_lt_of_le hi hbody))

end Extent

section

variable {code : Code} {finish : String} {P : Spot → Prop} {x : Extent} {n i : Nat} {sp sp' : Int}

theorem Safe.line_lt {line : Line} (hline : code[i]? = some line) (htarget : line.target? = none)
    (hP : P ⟨i, sp⟩) (hchange : sp' = sp + line.stackChange)
    (hnext : ∀ m < n, Safe code finish P m ⟨i + 1, sp'⟩) : Safe code finish P n ⟨i, sp⟩ := by
  refine .of_steps hP fun m hm b hstep => ?_
  cases hstep with
  | @next _ _ other hother _ =>
    obtain rfl : line = other := Option.some.inj (hline.symm.trans hother)
    exact hchange ▸ hnext m hm
  | @jump _ _ _ other name hother hname _ =>
    obtain rfl : line = other := Option.some.inj (hline.symm.trans hother)
    nomatch htarget.symm.trans hname

theorem Safe.line {line : Line} (hline : code[i]? = some line) (htarget : line.target? = none)
    (hP : P ⟨i, sp⟩) (hchange : sp' = sp + line.stackChange)
    (hnext : Safe code finish P n ⟨i + 1, sp'⟩) : Safe code finish P n ⟨i, sp⟩ :=
  line_lt hline htarget hP hchange fun _ hm => hnext.mono (Nat.le_of_lt hm)

theorem Safe.branch {line : Line} {name : String} {j : Nat} (hlabels : code.labels.Nodup)
    (hline : code[i]? = some line) (htarget : line.target? = some name)
    (hlabel : code[j]? = some (.label name)) (hP : P ⟨i, sp⟩) (hchange : line.stackChange = 0)
    (hnext : line.fallsThrough → Safe code finish P n ⟨i + 1, sp⟩)
    (hjump : Safe code finish P n ⟨j, sp⟩) : Safe code finish P n ⟨i, sp⟩ := by
  refine .of_steps hP fun m hm b hstep => ?_
  cases hstep with
  | @next _ _ other hother hfalls =>
    obtain rfl : line = other := Option.some.inj (hline.symm.trans hother)
    rw [hchange, Int.add_zero]
    exact (hnext hfalls).mono (Nat.le_of_lt hm)
  | @jump _ k _ other name' hother hname hk =>
    obtain rfl : line = other := Option.some.inj (hline.symm.trans hother)
    obtain rfl : name = name' := Option.some.inj (htarget.symm.trans hname)
    obtain rfl : j = k := Code.eq_of_label hlabels hlabel hk
    rw [hchange, Int.add_zero]
    exact hjump.mono (Nat.le_of_lt hm)

theorem Safe.pass {line : Line} (hline : code[i]? = some line) (htarget : line.target? = none)
    (hchange : line.stackChange = 0) (hi : x.body ≤ i) (hlast : i < x.last) (hsp : sp ≤ x.bottom)
    (hnext : Safe code finish x.Holds n ⟨i + 1, sp⟩) : Safe code finish x.Holds n ⟨i, sp⟩ := by
  refine .line hline htarget (.inside hi hlast hsp) ?_ hnext
  rw [hchange, Int.add_zero]

theorem Safe.jump {name : String} {j : Nat} (hlabels : code.labels.Nodup)
    (hline : code[i]? = some (.instr (.jump name))) (hlabel : code[j]? = some (.label name))
    (hi : x.body ≤ i) (hlast : i < x.last) (hsp : sp ≤ x.bottom)
    (hjump : Safe code finish x.Holds n ⟨j, sp⟩) : Safe code finish x.Holds n ⟨i, sp⟩ :=
  .branch hlabels hline rfl hlabel (.inside hi hlast hsp) rfl (fun hfalls => nomatch hfalls) hjump

theorem Instr.stackChange_of_isPlain {instruction : Instr} (h : instruction.isPlain) :
    (Line.instr instruction).stackChange = 0 := by
  cases instruction with
  | immediate op target source value =>
    exact if_neg fun hsp => of_decide_eq_true h hsp.1
  | _ => rfl

theorem StackOp.safe {op : StackOp} {before after : Nat} (hop : op.Moves (· < Word.count))
    (hdepth : op.depthAfter before = .ok after) (hat : At code i op.lines) (hi : x.body ≤ i)
    (hlast : i + op.lines.length ≤ x.last)
    (hnext : Safe code finish x.Holds n ⟨i + op.lines.length, x.height after⟩) :
    Safe code finish x.Holds n ⟨i, x.height before⟩ := by
  obtain ⟨_, htaken, rfl⟩ := depthAfter_ok.1 hdepth
  -- the words that are taken are there, and on them lie those that stay
  obtain ⟨rest, rfl⟩ := Nat.exists_eq_add_of_le' htaken
  rw [Nat.add_sub_cancel] at hnext
  cases op with
  | pushWord source | pushSingle source =>
    simp only [lines, List.length_cons, List.length_nil] at hat hlast hnext
    refine .line hat.get rfl (.inside hi (by omega) (Extent.height_le _)) ?_ <|
      .pass hat.tail.get rfl rfl (by omega) (by omega) (Extent.height_le _) hnext
    change x.height (rest + 1) = x.height rest + -wordBytes
    rw [Extent.height_add]
    rfl
  | popWord target | popSingle target =>
    simp only [lines, List.length_cons, List.length_nil] at hat hlast hnext
    refine .pass hat.get rfl rfl hi (by omega) (Extent.height_le _) <|
      .line hat.tail.get rfl (.inside (by omega) (by omega) (Extent.height_le _)) ?_ hnext
    change x.height rest = x.height (rest + 1) + wordBytes
    rw [Extent.height_add]
    exact (Int.sub_add_cancel _ _).symm
  | drop words =>
    by_cases hzero : words = 0
    · subst hzero
      exact hnext
    · simp only [lines, if_neg hzero, List.length_cons, List.length_nil] at hat hlast hnext
      refine .line hat.get rfl (.inside hi (by omega) (Extent.height_le _)) ?_ hnext
      have hbytes : droppedBytes words = wordBytes * words := by
        rw [droppedBytes, Nat.mod_eq_of_lt hop, Nat.mul_comm]
      change x.height rest = x.height (rest + words) + droppedBytes words
      rw [hbytes, Extent.height_add]
      exact (Int.sub_add_cancel _ _).symm
  | handOver => exact hop.elim

variable {body : Body} {s t : LowerState} {piece : Code} {callees : List SymbolId}

theorem Straight.safe (h : Straight body (· < Word.count) s piece callees t)
    (hlabels : code.labels.Nodup) (hat : At code i piece) (hi : x.body ≤ i)
    (hlast : i + piece.length ≤ x.last)
    (hnext : Safe code finish x.Holds n ⟨i + piece.length, x.height t.depth⟩) :
    Safe code finish x.Holds n ⟨i, x.height s.depth⟩ := by
  induction h generalizing i with
  | nil => exact hnext
  | op hdepth hop => exact StackOp.safe hop hdepth hat hi hlast hnext
  | plain hplain hgenerated =>
    obtain ⟨_, _, hoperand, _⟩ := Instr.silent_of_isPlain hplain hgenerated
    exact .pass hat.get (Line.operand?_eq_none.1 hoperand).1 (Instr.stackChange_of_isPlain hplain)
      hi hlast (Extent.height_le _) hnext
  | @address s id instruction haddress =>
    obtain ⟨location, _, rfl⟩ := Option.map_eq_some_iff.1 haddress
    cases location with
    | frame | static => exact .pass hat.get rfl rfl hi hlast (Extent.height_le _) hnext
  | call => exact .pass hat.get rfl rfl hi hlast (Extent.height_le _) hnext
  | @choose s flag label hlabel =>
    simp only [List.length_cons, List.length_nil] at hlast hnext
    have hend : Safe code finish x.Holds n ⟨i + 2, x.height s.depth⟩ :=
      .pass hat.tail.tail.get rfl rfl (by omega) (by omega) (Extent.height_le _) hnext
    have hinside : x.Holds ⟨i, x.height s.depth⟩ := .inside hi (by omega) (Extent.height_le _)
    refine .branch hlabels hat.get rfl hat.tail.tail.get hinside rfl ?_ hend
    intro _
    exact .pass hat.tail.get rfl rfl (by omega) (by omega) (Extent.height_le _) hend
  | append _ _ ih ih' =>
    rw [List.length_append] at hlast hnext
    refine ih hat.left hi (by omega) (ih' hat.right (by omega) (by omega) ?_)
    rwa [Nat.add_assoc]

theorem Safe.at_last (hlast : code[x.last]? = some (.label finish)) (hbody : x.body ≤ x.last)
    (n : Nat) : Safe code finish x.Holds n ⟨x.last, x.height x.words⟩ := by
  have hholds : x.Holds ⟨x.last, x.height x.words⟩ :=
    ⟨Nat.le_trans x.first_le hbody, Nat.le_refl _, fun _ => Extent.height_le _, fun _ => rfl⟩
  cases n with
  | zero => exact hholds
  | succ n => exact ⟨hholds, fun hne => absurd hlast hne⟩

theorem Emits.depth_eq {phrase : StmtPhrase} {marked : MarkedCode}
    (h : Emits body s phrase marked t) : t.depth = s.depth := by
  induction h with
  | var | nil => rfl
  | @act _ _ stmt _ hact hlower =>
    cases stmt with
    | call | assign | ret => exact (Lower.balanced_ok.1 hlower).2
    | var | branch | loop => nomatch hact
  | branch _ _ _ _ _ _ hv ihthen ihelse => exact ihelse.trans (ihthen.trans hv)
  | loop _ _ _ _ _ hv ih => exact ih.trans hv
  | block _ ih => exact ih
  | cons _ _ ih ihs => exact ihs.trans ih

theorem Stmt.safe_of_isAct {stmt : Stmt} {result : Ty} (hact : stmt.isAct)
    (h : stmt.lower body s = .ok piece t) (hs : s.depth = 0) (hlabels : code.labels.Nodup)
    (hfinish : code[x.last]? = some (.label body.finish))
    (hwords : x.words = if result.isVoid then 0 else 1)
    (hdrops : ∀ e ∈ stmt.exprs, e.Drops body (· < Word.count))
    (hrets : ∀ node value, .ret node value ∈ stmt.substmts →
      body.env.types.get? value.node.id = some result)
    (hat : At code i piece) (hi : x.body ≤ i) (hlast : i + piece.length ≤ x.last)
    (hnext : stmt.returns = false →
      Safe code body.finish x.Holds n ⟨i + piece.length, x.bottom⟩) :
    Safe code body.finish x.Holds n ⟨i, x.bottom⟩ := by
  have hbegin : x.bottom = x.height s.depth := by rw [hs, Extent.height_zero]
  cases stmt with
  | call node callee args =>
    obtain ⟨hstraight, hdepth⟩ := call_straight h hdrops (by decide)
    rw [hbegin, ← hdepth] at hnext
    rw [hbegin]
    exact hstraight.safe hlabels hat hi hlast (hnext rfl)
  | assign node target source =>
    obtain ⟨hstraight, hdepth⟩ := assign_straight h hdrops
    rw [hbegin, ← hdepth] at hnext
    rw [hbegin]
    exact hstraight.safe hlabels hat hi hlast (hnext rfl)
  | ret node value =>
    obtain ⟨inner, u, ty, rfl, hstraight, hty, hu, rfl⟩ := ret_straight h hdrops
    obtain rfl : ty = result :=
      Option.some.inj (hty.symm.trans (hrets node value List.mem_cons_self))
    rw [List.length_append, List.length_singleton] at hlast
    rw [hbegin]
    refine hstraight.safe hlabels hat.left hi (by omega) ?_
    refine .jump hlabels hat.right.get hfinish (by omega) (by omega) (Extent.height_le _) ?_
    rw [hu, hs, Nat.zero_add, ← hwords]
    exact .at_last hfinish (by omega) n
  | var | branch | loop => nomatch hact

theorem Body.test_safe {condition : Expr} {label : String} {test skip : Code} {u : LowerState}
    {j : Nat} (htest : condition.lower body s = .ok test u) (hskip : skipTo label u = .ok skip t)
    (hs : s.depth = 0) (ht : t.depth = 0) (hlabels : code.labels.Nodup)
    (hdrops : ∀ e ∈ condition.subexprs, e.Drops body (· < Word.count))
    (hat : At code i (test ++ skip)) (hi : x.body ≤ i)
    (hlast : i + (test ++ skip).length ≤ x.last) (hlabel : code[j]? = some (.label label))
    (hnext : Safe code finish x.Holds n ⟨i + (test ++ skip).length, x.bottom⟩)
    (hjump : Safe code finish x.Holds n ⟨j, x.bottom⟩) :
    Safe code finish x.Holds n ⟨i, x.bottom⟩ := by
  obtain ⟨front, hsplit, hstraight⟩ := test_straight htest hskip hdrops
  rw [hsplit] at hat hlast hnext
  rw [List.length_append, List.length_singleton] at hlast hnext
  rw [← Extent.height_zero, ← hs]
  refine hstraight.safe hlabels hat.left hi (by omega) ?_
  rw [ht, Extent.height_zero]
  exact .branch hlabels hat.right.get rfl hlabel (.inside (by omega) (by omega) (Int.le_refl _)) rfl
    (fun _ => hnext) hjump

theorem Emits.safe {phrase : StmtPhrase} {marked : MarkedCode} {result : Ty}
    (h : Emits body s phrase marked t) (hs : s.depth = 0) (hlabels : code.labels.Nodup)
    (hfinish : code[x.last]? = some (.label body.finish))
    (hwords : x.words = if result.isVoid then 0 else 1)
    (hdrops : ∀ e ∈ phrase.exprs, e.Drops body (· < Word.count))
    (hrets : ∀ node value, .ret node value ∈ phrase.substmts →
      body.env.types.get? value.node.id = some result)
    (hat : At code i marked.lines) (hi : x.body ≤ i) (hlast : i + marked.lines.length ≤ x.last)
    (hnext : phrase.returns = false →
      Safe code body.finish x.Holds n ⟨i + marked.lines.length, x.bottom⟩) :
    Safe code body.finish x.Holds n ⟨i, x.bottom⟩ := by
  induction h generalizing i n with
  | var | nil => exact hnext rfl
  | act hact hlower =>
    rw [MarkedCode.lines_ofPart] at hat hlast hnext
    exact Stmt.safe_of_isAct hact hlower hs hlabels hfinish hwords hdrops hrets hat hi hlast hnext
  | @branch s u v w t node condition thenBlock elseBlock otherwise finish test skip taken other _ _
      htest hskip hthen helse hv ihthen ihelse =>
    obtain ⟨hdparts, hdelse⟩ := List.forall_mem_append.1 hdrops
    obtain ⟨hdtest, hdthen⟩ := List.forall_mem_append.1 hdparts
    have hinside {node : Node} {value : Expr}
        (hret : .ret node value ∈ thenBlock.substmts ++ elseBlock.substmts) :=
      hrets node value (List.mem_cons_of_mem _ hret)
    simp only [MarkedCode.lines_append, MarkedCode.lines_ofPart, MarkedCode.lines_unmarked]
      at hat hlast hnext
    obtain ⟨hattest, hatthen, hjump, hotherwise, hatelse, hfinal, hlength⟩ := hat.of_branch
    rw [hlength] at hlast hnext
    -- one of the blocks can be left, so the statement can
    have hend (hreturns : (thenBlock.returns && elseBlock.returns) = false) :=
      Safe.pass hfinal rfl rfl (by omega) (by omega) (Int.le_refl _) (hnext hreturns)
    have hother := Safe.pass hotherwise rfl rfl (by omega) (by omega) (Int.le_refl _) <|
      ihelse (hthen.depth_eq.trans (hv.trans hs)) hdelse
        (fun _ _ hret => hinside (List.mem_append_right _ hret)) hatelse (by omega) (by omega)
        fun hreturns => hend (Bool.and_eq_false_iff.2 (.inr hreturns))
    have htaken := ihthen (hv.trans hs) hdthen
      (fun _ _ hret => hinside (List.mem_append_left _ hret)) hatthen (by omega) (by omega)
      fun hreturns => .jump hlabels hjump hfinal (by omega) (by omega) (Int.le_refl _)
        (hend (Bool.and_eq_false_iff.2 (.inl hreturns)))
    exact Body.test_safe htest hskip hs (hv.trans hs) hlabels hdtest hattest hi (by omega)
      hotherwise htaken hother
  | @loop s u v t node condition inner head finish test skip repeated _ _ htest hskip hinner hv
      ih =>
    obtain ⟨hdtest, hdinner⟩ := List.forall_mem_append.1 hdrops
    simp only [MarkedCode.lines_append, MarkedCode.lines_ofPart, MarkedCode.lines_unmarked]
      at hat hlast hnext
    obtain ⟨hathead, hattest, hatinner, hjump, hfinal, hlength⟩ := hat.of_loop
    rw [hlength] at hlast hnext
    have hend := Safe.pass hfinal rfl rfl (by omega) (by omega) (Int.le_refl _) (hnext rfl)
    suffices hhead : ∀ m ≤ n, Safe code body.finish x.Holds m ⟨i, x.bottom⟩ from
      hhead n (Nat.le_refl n)
    -- each time round at least the line at the head is passed
    intro m
    induction m using Nat.strongRecOn with
    | ind m ihm =>
      intro hm
      refine .line_lt hathead rfl (.inside hi (by omega) (Int.le_refl _)) (Int.add_zero _).symm
        fun k hk => ?_
      have hrepeated := ih (hv.trans hs) hdinner
        (fun node value hret => hrets node value (List.mem_cons_of_mem _ hret)) hatinner (by omega)
        (by omega) fun _ => .jump hlabels hjump hathead (by omega) (by omega) (Int.le_refl _)
          (ihm k hk (by omega))
      exact Body.test_safe htest hskip hs (hv.trans hs) hlabels hdtest hattest (by omega) (by omega)
        hfinal hrepeated (hend.mono (by omega))
  | block _ ih => exact ih hs hdrops hrets hat hi hlast hnext
  | @cons s u t stmt stmts first rest hfirst hrest ih ihs =>
    obtain ⟨hdfirst, hdrest⟩ := List.forall_mem_append.1 hdrops
    rw [MarkedCode.lines_append] at hat hlast hnext
    rw [List.length_append] at hlast hnext
    refine ih hs hdfirst (fun node value hret => hrets node value (List.mem_append_left _ hret))
      hat.left hi (by omega) fun hreturns => ?_
    refine ihs (hfirst.depth_eq.trans hs) hdrest
      (fun node value hret => hrets node value (List.mem_append_right _ hret)) hat.right (by omega)
      (by omega) fun hreturns' => ?_
    rw [Nat.add_assoc]
    exact hnext (Bool.or_eq_false_iff.2 ⟨hreturns, hreturns'⟩)

theorem WellTyped.words_eq {reach : List SymbolId} {args : List Expr} {tys : List Ty} {words : Nat}
    (h : WellTyped body.env.symbols reach (.values args tys))
    (htypes : ∀ e ∈ args, body.env.types.get? e.node.id = some (e.ty body.env.symbols))
    (hrun : Expr.lowerAll body args s = .ok (piece, words) t) : words = args.length := by
  induction args generalizing tys s piece words with
  | nil =>
    obtain ⟨heq, _⟩ := pure_ok.1 hrun
    exact (Prod.mk.inj heq).2
  | cons e es ih =>
    simp only [Expr.lowerAll, bind_ok, pure_ok, Environment.typeOf_ok, Lower.ofExcept_ok, sizeAt_ok,
      Prod.exists, Prod.mk.injEq, and_assoc, exists_and_left, exists_eq_left] at hrun
    obtain ⟨first, u, _, ty, hty, bytes, hbytes, rest, others, _, hrest, _, rfl, rfl⟩ := hrun
    obtain ⟨htype, htrest⟩ := List.forall_mem_cons.1 htypes
    cases h with
    | cons he hscalar hes =>
      rw [he.agrees.1] at htype
      obtain rfl := Option.some.inj (htype.symm.trans hty)
      obtain rfl : wordBytes = bytes :=
        Option.some.inj ((Ty.size?_of_isScalar hscalar).symm.trans hbytes)
      rw [ih hes htrest hrest, List.length_cons, Nat.add_comm]
      rfl

end

section

variable {env : Environment} {isName : String → Prop} {node : Node} {decls : List Decl}
  {program : Program}

def FunctionSite.bottom (f : FunctionSite env) : Int :=
  -(savedSize + f.frame.localBytes : Nat)

/-- The code behind the end label undoes what is on the stack there. -/
theorem FunctionSite.closing_change (f : FunctionSite env) (hname : f.symbol.name ≠ env.entry) :
    (f.closing.map Line.stackChange).sum =
      (if f.symbol.ty.yieldsWord then wordBytes else 0 : Nat) - f.bottom := by
  have hepilogue : ((Code.epilogue f.frame.localBytes).map Line.stackChange).sum = -f.bottom := by
    change (f.frame.localBytes : Int) + (0 + (0 + (savedSize + (0 + 0)))) = -f.bottom
    unfold bottom
    omega
  have hclosing : f.closing = .label f.finish ::
      ((if f.symbol.ty.yieldsWord then Code.retrieve .v0 else []) ++
        Code.epilogue f.frame.localBytes) := by
    rw [closing, Environment.ending, if_neg hname]
  have hlabel : (Line.label f.finish).stackChange = 0 := rfl
  have hretrieve : ((Code.retrieve .v0).map Line.stackChange).sum = wordBytes := rfl
  rw [hclosing, List.map_cons, List.sum_cons, List.map_append, List.sum_append, hepilogue, hlabel]
  split
  · rw [hretrieve]
    omega
  · rw [List.map_nil, List.sum_nil]
    omega

namespace CompiledFunction

variable (f : CompiledFunction env decls)

theorem yieldsWord_eq {result : Ty}
    (h : f.definition.Typed env.symbols env.entry f.outside result) :
    f.symbol.ty.yieldsWord = !result.isVoid := by
  rw [FunctionSite.symbol, h.signature]
  rfl

def extent : Extent :=
  ⟨f.startAt, f.bodyAt, f.finishAt, f.bottom, if f.symbol.ty.yieldsWord then 1 else 0,
    Nat.le_add_right _ _⟩

theorem opening_safe {code : Code} {finish : String} {n : Nat} (hat : At code f.startAt f.opening)
    (hnext : Safe code finish f.extent.Holds n ⟨f.bodyAt, f.bottom⟩) :
    Safe code finish f.extent.Holds n ⟨f.startAt, 0⟩ := by
  have hlength : f.bodyAt = f.startAt + 6 := rfl
  have hholds (k : Nat) (hk : k < 6) (sp : Int) : f.extent.Holds ⟨f.startAt + k, sp⟩ :=
    .ahead (Nat.le_add_right _ _) (Nat.add_lt_add_left hk _) (Nat.le_add_right _ _)
  refine .line hat.get rfl (hholds 0 (by decide) _) (Int.add_zero _).symm ?_
  refine .line hat.tail.get rfl (hholds 1 (by decide) _) (rfl : -(savedSize : Int) = _) ?_
  refine .line hat.tail.tail.get rfl (hholds 2 (by decide) _) (Int.add_zero _).symm ?_
  refine .line hat.tail.tail.tail.get rfl (hholds 3 (by decide) _) (Int.add_zero _).symm ?_
  refine .line hat.tail.tail.tail.tail.get rfl (hholds 4 (by decide) _) (Int.add_zero _).symm ?_
  refine .line hat.tail.tail.tail.tail.tail.get rfl (hholds 5 (by decide) _) ?_ hnext
  change f.bottom = -(savedSize : Int) + -f.frame.localBytes
  unfold FunctionSite.bottom
  omega

theorem drops (h : Accepted env isName decls)
    (hcounts : ∀ e ∈ f.definition.body.exprs, e.argCount < Word.count) :
    ∀ e ∈ f.definition.body.exprs, e.Drops f.body (· < Word.count) := by
  intro e he
  cases e with
  | call node callee args =>
    intro s piece words t hrun
    obtain ⟨result, htyped, _⟩ := h.function f
    obtain ⟨_, hcall⟩ := htyped.body.calls he
    have hsubset := StmtPhrase.subexprs_subset (.block f.definition.body) he
    cases hcall with
    | call _ _ _ hargs =>
      have hentered (e : Expr) (he : e ∈ args) :
          env.types.get? e.node.id = some (e.ty env.symbols) :=
        h.entered f.definition f.mem e (hsubset (List.mem_cons_of_mem _ (Expr.mem_subexprsAll he)))
      have hwords := @WellTyped.words_eq f.body _ _ _ _ _ _ _ hargs hentered hrun
      rw [hwords]
      exact hcounts _ he
  | _ => trivial

theorem safe (h : Accepted env isName decls)
    (hlower : env.lower (.program node decls) = .ok program) (hlabels : program.code.labels.Nodup)
    (hcounts : ∀ e ∈ f.definition.body.exprs, e.argCount < Word.count) (n : Nat) :
    Safe program.code f.finish f.extent.Holds n ⟨f.startAt, 0⟩ := by
  obtain ⟨result, htyped, _⟩ := h.function f
  obtain ⟨marked, hemits, hlines⟩ := f.emits
  have hat := f.at_lines hlower
  have hatbody : At program.code f.bodyAt marked.lines := hlines ▸ hat.left.right
  have hfinish := f.code_finishAt hlower
  have hwords : f.extent.words = if result.isVoid then 0 else 1 := by
    change (if f.symbol.ty.yieldsWord then 1 else 0) = _
    rw [f.yieldsWord_eq htyped]
    cases result.isVoid <;> rfl
  refine f.opening_safe hat.left.left ?_
  refine @Emits.safe _ f.extent n f.bodyAt f.body _ _ _ _ result hemits f.inside_depth hlabels
    hfinish hwords (f.drops h hcounts) ?_ hatbody (Nat.le_refl _) ?_ ?_
  · intro node value hret
    have hexprs := StmtPhrase.exprs_subset (.block f.definition.body) hret
    rw [← (htyped.body.returns_typed hret).agrees.1]
    exact h.entered f.definition f.mem value (hexprs value.self_mem_subexprs)
  · rw [hlines]
    exact Nat.le_refl _
  · -- falling through is for functions without a result
    intro hreturns
    have hvoid : result.isVoid = true := by
      rw [← Bool.not_eq_false]
      exact fun hvalue => Bool.noConfusion (hreturns.symm.trans (htyped.returns hvalue))
    rw [hvoid, if_pos rfl] at hwords
    have hend := @Safe.at_last _ _ f.extent hfinish (Nat.le_add_right _ _) n
    rw [hwords, Extent.height_zero] at hend
    rw [hlines]
    exact hend

theorem holds_onPath (h : Accepted env isName decls)
    (hlower : env.lower (.program node decls) = .ok program) (hlabels : program.code.labels.Nodup)
    (hcounts : ∀ e ∈ f.definition.body.exprs, e.argCount < Word.count) {a : Spot}
    (ha : OnPath program.code f.start f.finish a) : f.extent.Holds a := by
  have hstart : program.code[f.startAt]? = some (.label f.start) := (f.at_lines hlower).get
  refine (Safe.of_onPath (fun i hi n => ?_) ha 0).here
  obtain rfl : i = f.startAt := Code.eq_of_label hlabels hi hstart
  exact f.safe h hlower hlabels hcounts n

/-- What holds of `$sp` on every path through the function. -/
def Balanced (code : Code) : Prop :=
  ∃ params result, f.symbol.ty = .func params result ∧
    ∀ a, OnPath code f.start f.finish a →
      f.startAt ≤ a.index ∧ a.index ≤ f.finishAt ∧ (f.bodyAt ≤ a.index → a.sp ≤ f.bottom) ∧
      (code[a.index]? = some (.label f.finish) →
        a.sp = f.bottom - (if result.isVoid then 0 else wordBytes : Nat) ∧
        (f.symbol.name ≠ env.entry → a.sp + (f.closing.map Line.stackChange).sum = 0))

theorem balanced (h : Accepted env IsName decls)
    (hlower : env.lower (.program node decls) = .ok program)
    (hcounts : ∀ e ∈ f.definition.body.exprs, e.argCount < Word.count) :
    f.Balanced program.code := by
  have hlabels := h.code_labels_nodup hlower
  obtain ⟨result, htyped, _⟩ := h.function f
  refine ⟨_, result, htyped.signature, fun a ha => ?_⟩
  obtain ⟨hfirst, hlast, hbottom, hend⟩ := f.holds_onPath h hlower hlabels hcounts ha
  refine ⟨hfirst, hlast, hbottom, fun hfinish => ?_⟩
  have hword : (if f.symbol.ty.yieldsWord then wordBytes else 0) =
      if result.isVoid then 0 else wordBytes := by
    rw [f.yieldsWord_eq htyped]
    cases result.isVoid <;> rfl
  have hsp : a.sp = f.bottom - (if result.isVoid then 0 else wordBytes : Nat) := by
    rw [hend (Code.eq_of_label hlabels hfinish (f.code_finishAt hlower)), ← hword]
    change f.bottom - (wordBytes * if f.symbol.ty.yieldsWord then 1 else 0 : Nat) = _
    cases f.symbol.ty.yieldsWord <;> rfl
  refine ⟨hsp, fun hname => ?_⟩
  rw [hsp, f.closing_change hname, hword]
  omega

end CompiledFunction

end

/-- On every path through a function of a compiled text `$sp` is never above the bottom of the
locals once they are reserved. At the end label it is one word below that if the function returns a
value, and just there if not, so that the lines behind the label restore the `$sp` of the caller. -/
theorem stack_balanced_on_paths {source : String} {options : Options} {text : String} {count : Nat}
    (h : compileText source options = .ok ⟨some text, count⟩) (hcount : count < Word.count) :
    ∃ (env : Environment) (decls : List Decl) (program : Program),
      env = .ofText source options.entry ∧ decls = (Tree.ofText source).decls ∧
      env.lower (Tree.ofText source) = .ok program ∧ text = program.text ∧
      (∀ definition, .func definition ∈ decls →
        ∃ f : CompiledFunction env decls, f.definition = definition) ∧
      ∀ f : CompiledFunction env decls,
        At program.code f.startAt f.lines ∧ f.Balanced program.code := by
  obtain ⟨node, decls, program, htree, haccepted, hlower, rfl, hlength⟩ := compileText_ok h
  rw [htree] at hlength ⊢
  generalize Environment.ofText source options.entry = env at haccepted hlower ⊢
  refine ⟨env, decls, program, rfl, rfl, hlower, rfl,
    fun _ => CompiledFunction.exists_of_lower hlower, fun f => ⟨f.at_lines hlower, ?_⟩⟩
  refine f.balanced haccepted hlower fun e he => ?_
  exact Nat.lt_of_le_of_lt (@Tree.argCount_le (.program node decls) _ f.mem _ he)
    (hlength ▸ hcount)

def lowering : String :=
  "func low(a : int) : int \x7b while a > 9 \x7b if a > 99 \x7b return 9; \x7d \x7d return a; \x7d"

theorem lowering_balanced :
    ∃ text count, compileText lowering ⟨"main", false⟩ = .ok ⟨some text, count⟩ ∧
      count < Word.count ∧ ∃ env decls, ∃ program : Program, text = program.text ∧
        ∃ f : CompiledFunction env decls, f.Balanced program.code := by
  have hclean : ((∀ n ∈ (parse (Scanner.ofText lowering)).tree.argCounts,
          n * wordBytes < Word.count) ∧
        (parse (Scanner.ofText lowering)).log = [] ∧
        (check (parse (Scanner.ofText lowering)).symbols "main"
          (parse (Scanner.ofText lowering)).tree).log = []) ∧
      (parse (Scanner.ofText lowering)).nodeCount < Word.count ∧
      (parse (Scanner.ofText lowering)).tree.decls.any fun decl => decl.definition?.isSome := by
    decide +kernel
  obtain ⟨text, count, h, hcount⟩ := compileText_of_clean hclean.1
  have hsmall : count < Word.count := hcount ▸ hclean.2.1
  obtain ⟨env, decls, program, _, hdecls, _, htext, hfunctions, hbalanced⟩ :=
    stack_balanced_on_paths h hsmall
  obtain ⟨decl, hmem, hfunc⟩ := List.any_eq_true.1 hclean.2.2
  cases decl with
  | func definition =>
    obtain ⟨f, _⟩ := hfunctions definition (hdecls ▸ hmem)
    exact ⟨text, count, h, hsmall, env, decls, program, htext, f, (hbalanced f).2⟩
  | var | array => exact absurd hfunc Bool.false_ne_true

end MipsCompiler
