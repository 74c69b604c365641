import Mathlib.Data.List.Nodup
import MipsCompiler.Proofs.Execution.Machine
import MipsCompiler.Proofs.Labels.Program
import MipsCompiler.Proofs.Lowering.Emission
import MipsCompiler.Proofs.Lowering.Totality

set_option autoImplicit false

/-!
# The value of an expression

The value of an expression is defined on the tree, from the addresses of its symbols and the words in
memory. Its code leaves this value on the stack and changes nothing but the bytes below `$sp` that
its own intermediate values take, as long as none of what it reads is kept there.
-/

namespace MipsCompiler

/-! ## Values -/

/-- What the value of an expression depends on. -/
structure Valuation where
  arithmetic : Arithmetic
  symbols : SymbolTable
  address : SymbolId → Word
  memory : Memory

def Literal.word : Literal → Word
  | int value => value
  | float value => value.bits
  | bool value => .ofBool value

namespace Comparison

def onWords : Comparison → Word → Word → Bool
  | ge => fun a b => decide (b.toInt ≤ a.toInt)
  | le => fun a b => decide (a.toInt ≤ b.toInt)
  | ne => fun a b => decide (a ≠ b)
  | eq => fun a b => decide (a = b)
  | gt => fun a b => decide (b.toInt < a.toInt)
  | lt => fun a b => decide (a.toInt < b.toInt)

/-- There are tests for three comparisons only. -/
def onSingles (arithmetic : Arithmetic) : Comparison → Word → Word → Bool
  | lt => arithmetic.test .lt
  | le => arithmetic.test .le
  | eq => arithmetic.test .eq
  | gt => fun a b => arithmetic.test .lt b a
  | ge => fun a b => arithmetic.test .le b a
  | ne => fun a b => !arithmetic.test .eq a b

end Comparison

namespace BinaryOp

def onWords (arithmetic : Arithmetic) : BinaryOp → Word → Word → Word
  | add => (· + ·)
  | sub => (· - ·)
  | mul => (· * ·)
  | div => arithmetic.divide
  | and => (· &&& ·)
  | or => (· ||| ·)
  | compare comparison => fun a b => .ofBool (comparison.onWords a b)

/-- The operators `and` and `or` do not take single precision numbers. -/
def onSingles (arithmetic : Arithmetic) : BinaryOp → Word → Word → Word
  | add => arithmetic.single .add
  | sub => arithmetic.single .sub
  | mul => arithmetic.single .mul
  | div => arithmetic.single .div
  | compare comparison => fun a b => .ofBool (comparison.onSingles arithmetic a b)
  | and => fun _ _ => 0
  | or => fun _ _ => 0

end BinaryOp

/-- The bytes of what an address refers to. -/
def Ty.targetBytes : Ty → Nat
  | address target => target.size?.getD 0
  | _ => 0

namespace Expr

/-- Induction over expressions that does not go into the arguments of calls. -/
@[elab_as_elim]
theorem induct {P : Expr → Prop} (literal : ∀ node value, P (.literal node value))
    (address : ∀ node symbol, P (.address node symbol))
    (deref : ∀ node operand, P operand → P (.deref node operand))
    (index : ∀ node base offset, P base → P offset → P (.index node base offset))
    (binary : ∀ node op left right, P left → P right → P (.binary node op left right))
    (not : ∀ node operand, P operand → P (.not node operand))
    (call : ∀ node callee args, P (.call node callee args)) (e : Expr) : P e :=
  @Expr.rec P (fun _ => True) literal address deref index binary not
    (fun node callee args _ => call node callee args) trivial (fun _ _ _ _ => trivial) e

def value (v : Valuation) : Expr → Word
  | .literal _ value => value.word
  | .address _ id => v.address id
  | .deref _ operand => v.memory.word (operand.value v)
  | .index node base offset =>
    base.value v + offset.value v * .ofNat 32 ((Expr.index node base offset).ty v.symbols).targetBytes
  | .binary _ op left right =>
    if (left.ty v.symbols).isFloat then op.onSingles v.arithmetic (left.value v) (right.value v)
    else op.onWords v.arithmetic (left.value v) (right.value v)
  | .not _ operand => operand.value v ^^^ 1
  | .call _ _ _ => 0

def reads (v : Valuation) : Expr → List Word
  | .deref _ operand => operand.value v :: operand.reads v
  | .index _ base offset => base.reads v ++ offset.reads v
  | .binary _ _ left right => left.reads v ++ right.reads v
  | .not _ operand => operand.reads v
  | _ => []

/-- The words of the stack that are in use at once while an expression is evaluated. -/
def stackWords : Expr → Nat
  | .literal _ _ => 1
  | .address _ _ => 1
  | .deref _ operand => operand.stackWords
  | .index _ base offset => max base.stackWords (offset.stackWords + 1)
  | .binary _ _ left right => max left.stackWords (right.stackWords + 1)
  | .not _ operand => operand.stackWords
  | .call _ _ _ => 0

theorem value_congr {v : Valuation} {m : Memory} (e : Expr)
    (h : ∀ a ∈ e.reads v, ∀ b, Memory.Covers a b → m b = v.memory b) :
    e.value { v with memory := m } = e.value v ∧ e.reads { v with memory := m } = e.reads v := by
  induction e using Expr.induct with
  | literal | address | call => exact ⟨rfl, rfl⟩
  | deref node operand ih =>
    obtain ⟨hhere, hoperand⟩ := List.forall_mem_cons.1 h
    obtain ⟨hvalue, hreads⟩ := ih hoperand
    refine ⟨?_, by rw [reads, reads, hvalue, hreads]⟩
    rw [value, value, hvalue]
    exact Memory.word_congr hhere
  | index node base offset ihbase ihoffset =>
    obtain ⟨hbase, hoffset⟩ := List.forall_mem_append.1 h
    obtain ⟨hvbase, hrbase⟩ := ihbase hbase
    obtain ⟨hvoffset, hroffset⟩ := ihoffset hoffset
    exact ⟨by rw [value, value, hvbase, hvoffset], by rw [reads, reads, hrbase, hroffset]⟩
  | binary node op left right ihleft ihright =>
    obtain ⟨hleft, hright⟩ := List.forall_mem_append.1 h
    obtain ⟨hvleft, hrleft⟩ := ihleft hleft
    obtain ⟨hvright, hrright⟩ := ihright hright
    exact ⟨by rw [value, value, hvleft, hvright], by rw [reads, reads, hrleft, hrright]⟩
  | not node operand ih =>
    obtain ⟨hvalue, hreads⟩ := ih h
    exact ⟨by rw [value, value, hvalue], hreads⟩

end Expr

/-! ## Room below the stack pointer -/

/-- The bytes right below `sp`, as many as `room` says. -/
def Below (sp : Word) (room : Nat) (b : Word) : Prop :=
  b.toNat < sp.toNat ∧ sp.toNat ≤ b.toNat + room

instance (sp : Word) (room : Nat) (b : Word) : Decidable (Below sp room b) :=
  inferInstanceAs (Decidable (_ ∧ _))

namespace CpuState

/-- A word is pushed: `room` bytes below the stack pointer may be changed, and nothing else. -/
structure Pushed (st : CpuState) (room : Nat) (w : Word) (st' : CpuState) : Prop where
  sp : st'.get .sp = st.get .sp - 4#32
  fp : st'.get .fp = st.get .fp
  kept : ∀ b, ¬ Below (st.get .sp) room b → st'.memory b = st.memory b
  top : st'.top = w

/-- A word is left at the address `a`, with the stack pointer there. -/
structure Leaves (st : CpuState) (a w : Word) (st' : CpuState) : Prop where
  sp : st'.get .sp = a
  fp : st'.get .fp = st.get .fp
  memory : st'.memory = st.memory.store a w

variable {st st₁ st₂ st₃ : CpuState} {room room' : Nat} {v w x : Word}

theorem Leaves.top (h : st.Leaves v w st₁) : st₁.top = w := by
  rw [CpuState.top, h.sp, h.memory]
  exact Memory.word_store _ _ _

theorem Leaves.pushed (h : st.Leaves (st.get .sp - 4#32) w st₁) (hroom : 4 ≤ room)
    (hsp : room ≤ (st.get .sp).toNat) : st.Pushed room w st₁ := by
  refine ⟨h.sp, h.fp, fun b hb => ?_, h.top⟩
  rw [h.memory]
  refine Memory.store_of_not_covers (fun hcovers => hb ?_) w
  rw [Memory.Covers, wordBytes] at hcovers
  rw [Below]
  bv_omega

theorem Pushed.replace (h : st.Pushed room v st₁) (h' : st₁.Leaves (st₁.get .sp) w st₂)
    (hroom : 4 ≤ room) (hsp : room ≤ (st.get .sp).toNat) : st.Pushed room w st₂ := by
  refine ⟨h'.sp.trans h.sp, h'.fp.trans h.fp, fun b hb => ?_, h'.top⟩
  rw [h'.memory, ← h.kept b hb, h.sp]
  refine Memory.store_of_not_covers (fun hcovers => hb ?_) w
  rw [Memory.Covers, wordBytes] at hcovers
  rw [Below]
  bv_omega

theorem Pushed.second (h : st.Pushed room v st₁) (h' : st₁.Pushed room' w st₂)
    (hsp : 4 ≤ (st.get .sp).toNat) : st₂.memory.word (st₂.get .sp + 4#32) = v := by
  have haddress : st₂.get .sp + 4#32 = st₁.get .sp := by
    rw [h'.sp, BitVec.sub_add_cancel]
  rw [haddress, ← h.top]
  refine Memory.word_congr fun b hcovers => h'.kept b fun hbelow => ?_
  rw [Memory.Covers, wordBytes] at hcovers
  have hsp' := h.sp
  rw [Below] at hbelow
  bv_omega

theorem Pushed.combine (h : st.Pushed room v st₁) (h' : st₁.Pushed room' w st₂)
    (h'' : st₂.Leaves (st₂.get .sp + 4#32) x st₃)
    (hsp : max room (room' + 4) ≤ (st.get .sp).toNat) :
    st.Pushed (max room (room' + 4)) x st₃ := by
  have hsp₁ := h.sp
  have hsp₂ : st₂.get .sp + 4#32 = st.get .sp - 4#32 := by
    rw [h'.sp, BitVec.sub_add_cancel, h.sp]
  refine ⟨h''.sp.trans hsp₂, (h''.fp.trans h'.fp).trans h.fp, fun b hb => ?_, h''.top⟩
  rw [Below] at hb
  have hfirst : ¬ Below (st.get .sp) room b := by
    rw [Below]
    omega
  have hsecond : ¬ Below (st₁.get .sp) room' b := by
    rw [Below]
    bv_omega
  rw [h''.memory, ← h.kept b hfirst, ← h'.kept b hsecond, hsp₂]
  refine Memory.store_of_not_covers (fun hcovers => hb ?_) x
  rw [Memory.Covers, wordBytes] at hcovers
  bv_omega

structure Rests (st : CpuState) (a : Word) (u : CpuState) : Prop where
  sp : u.get .sp = a
  fp : u.get .fp = st.get .fp
  memory : u.memory = st.memory

namespace Rests

variable {a : Word} {u : CpuState}

theorem refl : st.Rests (st.get .sp) st :=
  ⟨rfl, rfl, rfl⟩

theorem set (h : st.Rests a u) {r : Reg} (hsp : r ≠ .sp) (hfp : r ≠ .fp) (w : Word) :
    st.Rests a (u.set r w) where
  sp := (get_set_of_ne u r .sp w hsp.symm).trans h.sp
  fp := (get_set_of_ne u r .fp w hfp.symm).trans h.fp
  memory := h.memory

theorem setSingle (h : st.Rests a u) (r : Reg) (w : Word) : st.Rests a (u.setSingle r w) :=
  ⟨h.sp, h.fp, h.memory⟩

theorem setFlag (h : st.Rests a u) (b : Bool) : st.Rests a (u.setFlag b) :=
  ⟨h.sp, h.fp, h.memory⟩

theorem pop (h : st.Rests a u) : st.Rests (a + 4#32) u.pop where
  sp := by rw [sp_pop, h.sp]
  fp := (get_pop_of_ne u .fp (by decide)).trans h.fp
  memory := h.memory

theorem push (h : st.Rests (a + 4#32) u) (w : Word) : st.Leaves a w (u.push w) where
  sp := by rw [sp_push, h.sp, BitVec.add_sub_cancel]
  fp := (get_push_of_ne u .fp w (by decide)).trans h.fp
  memory := by rw [memory_push, h.sp, h.memory, BitVec.add_sub_cancel]

theorem top (h : st.Rests a u) : u.top = st.memory.word a := by
  rw [CpuState.top, h.sp, h.memory]

end Rests

end CpuState

/-! ## The code of one node -/

def Mips.addressOf (M : Mips) (storage : Storage) (fp : Word) (id : SymbolId) : Word :=
  match storage.locate? id with
  | some (.frame offset) => fp + .ofInt 32 offset
  | some (.static label) => M.static label
  | none => 0

theorem Lower.lines_of_perform {op : StackOp} {s t : LowerState} {code : Code}
    (h : Lower.perform op s = .ok code t) : code = op.lines := by
  obtain ⟨_, _, hcode, _⟩ := Lower.perform_ok.1 h
  exact hcode

section

variable {M : Mips} {body : Body} {s t : LowerState} {code : Code}

open CpuState

theorem Mips.Runs.popOne (st : CpuState) :
    ∃ u, M.Runs (StackOp.popWord .t0).lines st u ∧ st.Rests (st.get .sp + 4#32) u ∧
      u.get .t0 = st.top := by
  refine ⟨_, Runs.popWord st, (Rests.refl.set (by decide) (by decide) _).pop, ?_⟩
  rw [get_pop_of_ne _ _ (by decide), get_set_self _ _ _ (by decide)]

theorem Mips.Runs.popWords (st : CpuState) :
    ∃ u, M.Runs ((StackOp.popWord .t1).lines ++ (StackOp.popWord .t0).lines) st u ∧
      st.Rests (st.get .sp + 4#32 + 4#32) u ∧ u.get .t0 = st.memory.word (st.get .sp + 4#32) ∧
      u.get .t1 = st.top := by
  have hfirst : st.Rests (st.get .sp + 4#32) (st.set .t1 st.top).pop :=
    (Rests.refl.set (by decide) (by decide) _).pop
  refine ⟨_, (Runs.popWord st).append (Runs.popWord _),
    (hfirst.set (by decide) (by decide) _).pop, ?_, ?_⟩
  · rw [get_pop_of_ne _ _ (by decide), get_set_self _ _ _ (by decide), hfirst.top]
  · rw [get_pop_of_ne _ _ (by decide), get_set_of_ne _ _ _ _ (by decide),
      get_pop_of_ne _ _ (by decide), get_set_self _ _ _ (by decide)]

theorem Mips.Runs.popSingles (st : CpuState) :
    ∃ u, M.Runs ((StackOp.popSingle .f1).lines ++ (StackOp.popSingle .f0).lines) st u ∧
      st.Rests (st.get .sp + 4#32 + 4#32) u ∧ u.singles .f0 = st.memory.word (st.get .sp + 4#32) ∧
      u.singles .f1 = st.top := by
  have hfirst : st.Rests (st.get .sp + 4#32) (st.setSingle .f1 st.top).pop :=
    (Rests.refl.setSingle _ _).pop
  refine ⟨_, (Runs.popSingle st).append (Runs.popSingle _), (hfirst.setSingle _ _).pop, ?_, ?_⟩
  · rw [singles_pop, singles_setSingle_self, hfirst.top]
  · rw [singles_pop, singles_setSingle_of_ne _ _ _ _ (by decide), singles_pop,
      singles_setSingle_self]

theorem Mips.Runs.compute {st u : CpuState} {a w : Word} {r : Reg} (instruction : Instr)
    (hstraight : instruction.isStraight) (heffect : M.effect u instruction = u.set r w)
    (hrests : st.Rests (a + 4#32) u) (hzero : r ≠ .zero) (hsp : r ≠ .sp) (hfp : r ≠ .fp) :
    ∃ st', M.Runs (.instr instruction :: (StackOp.pushWord r).lines) u st' ∧ st.Leaves a w st' := by
  refine ⟨_, .cons hstraight (Runs.pushWord _ hsp), ?_⟩
  rw [heffect, get_set_self _ _ _ hzero]
  exact (hrests.set hsp hfp w).push w

theorem Mips.Runs.computeSingle {st u : CpuState} {a w : Word} {r : Reg} (instruction : Instr)
    (hstraight : instruction.isStraight) (heffect : M.effect u instruction = u.setSingle r w)
    (hrests : st.Rests (a + 4#32) u) :
    ∃ st', M.Runs (.instr instruction :: (StackOp.pushSingle r).lines) u st' ∧
      st.Leaves a w st' := by
  refine ⟨_, .cons hstraight (Runs.pushSingle _), ?_⟩
  rw [heffect, singles_setSingle_self]
  exact (hrests.setSingle r w).push w

theorem CpuState.Rests.below (st : CpuState) : st.Rests (st.get .sp - 4#32 + 4#32) st := by
  rw [BitVec.sub_add_cancel]
  exact .refl

theorem Literal.runs {value : Literal} (h : value.lower s = .ok code t) (st : CpuState) :
    ∃ st', M.Runs code st st' ∧ st.Leaves (st.get .sp - 4#32) value.word st' := by
  have hbelow := CpuState.Rests.below st
  cases value with
  | int value =>
    simp only [Literal.lower, bind_ok, pure_ok] at h
    obtain ⟨push, _, hpush, rfl, _⟩ := h
    rw [Lower.lines_of_perform hpush]
    refine Mips.Runs.compute _ rfl ?_ hbelow (by decide) (by decide) (by decide)
    exact congrArg (st.set .t0) BitVec.ofInt_toInt
  | bool value =>
    simp only [Literal.lower, bind_ok, pure_ok] at h
    obtain ⟨push, _, hpush, rfl, _⟩ := h
    rw [Lower.lines_of_perform hpush]
    refine Mips.Runs.compute _ rfl ?_ hbelow (by decide) (by decide) (by decide)
    cases value <;> rfl
  | float value =>
    simp only [Literal.lower, bind_ok, pure_ok] at h
    obtain ⟨push, _, hpush, rfl, _⟩ := h
    rw [Lower.lines_of_perform hpush]
    exact Mips.Runs.computeSingle _ rfl rfl hbelow

namespace Body

theorem pushAddress_runs {pos : Position} {id : SymbolId} (h : body.pushAddress pos id s = .ok code t)
    (st : CpuState) :
    ∃ st', M.Runs code st st' ∧
      st.Leaves (st.get .sp - 4#32) (M.addressOf body.storage (st.get .fp) id) st' := by
  unfold pushAddress at h
  cases hload : body.storage.addressInstr? .t0 id with
  | none =>
    rw [hload] at h
    exact absurd h Lower.refuse_ok
  | some load =>
    simp only [hload, bind_ok, pure_ok] at h
    obtain ⟨push, _, hpush, rfl, _⟩ := h
    rw [Lower.lines_of_perform hpush]
    obtain ⟨location, hlocation, rfl⟩ := Option.map_eq_some_iff.1 hload
    have hbelow := CpuState.Rests.below st
    cases location with
    | frame offset =>
      refine Mips.Runs.compute _ rfl ?_ hbelow (by decide) (by decide) (by decide)
      rw [Mips.addressOf, hlocation]
      rfl
    | static label =>
      refine Mips.Runs.compute _ rfl ?_ hbelow (by decide) (by decide) (by decide)
      rw [Mips.addressOf, hlocation]
      rfl

theorem load_runs {pos : Position} {ty : Ty} (h : load pos ty s = .ok code t) (st : CpuState) :
    ∃ st', M.Runs code st st' ∧ st.Leaves (st.get .sp) (st.memory.word st.top) st' := by
  simp only [load, bind_ok] at h
  obtain ⟨pop, s', hpop, h⟩ := h
  rw [Lower.lines_of_perform hpop] at h
  obtain ⟨u, hpops, hrests, ht0⟩ := Mips.Runs.popOne (M := M) st
  have hplace : u.memory.word (u.get .t0 + 0#32) = st.memory.word st.top := by
    rw [BitVec.add_zero, ht0, hrests.memory]
  cases ty with
  | float =>
    simp only [bind_ok, pure_ok] at h
    obtain ⟨push, _, hpush, rfl, _⟩ := h
    rw [Lower.lines_of_perform hpush]
    obtain ⟨st', hrun, hleaves⟩ := Mips.Runs.computeSingle (M := M) (r := .f0)
      (.loadSingle .f0 0 .t0) rfl (congrArg (u.setSingle .f0) hplace) hrests
    exact ⟨st', hpops.append hrun, hleaves⟩
  | int | bool =>
    simp only [bind_ok, pure_ok] at h
    obtain ⟨push, _, hpush, rfl, _⟩ := h
    rw [Lower.lines_of_perform hpush]
    obtain ⟨st', hrun, hleaves⟩ := Mips.Runs.compute (M := M) (r := .t0) (.loadWord .t0 0 .t0) rfl
      (congrArg (u.set .t0) hplace) hrests (by decide) (by decide) (by decide)
    exact ⟨st', hpops.append hrun, hleaves⟩
  | _ => exact absurd h Lower.refuse_ok

theorem invert_runs (h : invert s = .ok code t) (st : CpuState) :
    ∃ st', M.Runs code st st' ∧ st.Leaves (st.get .sp) (st.top ^^^ 1) st' := by
  simp only [invert, bind_ok, pure_ok] at h
  obtain ⟨pop, _, hpop, push, _, hpush, rfl, _⟩ := h
  rw [Lower.lines_of_perform hpop, Lower.lines_of_perform hpush]
  obtain ⟨u, hpops, hrests, ht0⟩ := Mips.Runs.popOne (M := M) st
  rw [← ht0]
  obtain ⟨st', hrun, hleaves⟩ := Mips.Runs.compute (M := M) (r := .t0)
    (.immediate .xori .t0 .t0 1) rfl rfl hrests (by decide) (by decide) (by decide)
  exact ⟨st', hpops.append hrun, hleaves⟩

theorem targetBytes_of_elementSize {pos : Position} {ty : Ty} {size : Nat}
    (h : elementSize pos ty s = .ok size t) : ty.targetBytes = size := by
  cases ty with
  | address element =>
    obtain ⟨hsize, _⟩ := Lower.ofExcept_ok.1 h
    rw [Ty.targetBytes, sizeAt_ok.1 hsize]
    rfl
  | _ => exact absurd h Lower.refuse_ok

theorem select_runs {size : Nat} (h : select size s = .ok code t) (st : CpuState) :
    ∃ st', M.Runs code st st' ∧ st.Leaves (st.get .sp + 4#32)
      (st.memory.word (st.get .sp + 4#32) + st.top * .ofNat 32 size) st' := by
  simp only [select, bind_ok, pure_ok] at h
  obtain ⟨offset, _, hoffset, base, _, hbase, push, _, hpush, rfl, _⟩ := h
  rw [Lower.lines_of_perform hoffset, Lower.lines_of_perform hbase, Lower.lines_of_perform hpush]
  obtain ⟨u, hpops, hrests, ht0, ht1⟩ := Mips.Runs.popWords (M := M) st
  have hsized := hrests.set (r := .t2) (by decide) (by decide) (.ofNat 32 size)
  have hscaled := hsized.set (r := .t1) (by decide) (by decide) (st.top * .ofNat 32 size)
  have hsize : M.effect u (.constant .t2 size) = u.set .t2 (.ofNat 32 size) :=
    congrArg (u.set .t2) (BitVec.ofInt_natCast 32 size)
  have hmul : M.effect (u.set .t2 (.ofNat 32 size)) (.word .mul .t1 .t1 .t2) =
      (u.set .t2 (.ofNat 32 size)).set .t1 (st.top * .ofNat 32 size) := by
    rw [Mips.effect, get_set_self _ _ _ (by decide), get_set_of_ne _ _ _ _ (by decide), ht1]
    rfl
  generalize hu : (u.set .t2 (.ofNat 32 size)).set .t1 (st.top * .ofNat 32 size) = scaled
    at hscaled hmul
  have hadd : M.effect scaled (.word .add .t0 .t0 .t1) =
      scaled.set .t0 (st.memory.word (st.get .sp + 4#32) + st.top * .ofNat 32 size) := by
    rw [Mips.effect, ← hu, get_set_self _ _ _ (by decide), get_set_of_ne _ _ _ _ (by decide),
      get_set_of_ne _ _ _ _ (by decide), ht0]
    rfl
  obtain ⟨st', hrun, hleaves⟩ := Mips.Runs.compute _ rfl hadd hscaled (by decide) (by decide)
    (by decide)
  rw [← hmul, ← hsize] at hrun
  rw [List.append_assoc]
  exact ⟨st', hpops.append (.cons rfl (.cons rfl hrun)), hleaves⟩

theorem combineWords_runs {op : WordOp} (h : combineWords op s = .ok code t) (st : CpuState) :
    ∃ st', M.Runs code st st' ∧ st.Leaves (st.get .sp + 4#32)
      (op.apply M.arithmetic (st.memory.word (st.get .sp + 4#32)) st.top) st' := by
  simp only [combineWords, bind_ok, pure_ok] at h
  obtain ⟨right, _, hright, left, _, hleft, push, _, hpush, rfl, _⟩ := h
  rw [Lower.lines_of_perform hright, Lower.lines_of_perform hleft, Lower.lines_of_perform hpush]
  obtain ⟨u, hpops, hrests, ht0, ht1⟩ := Mips.Runs.popWords (M := M) st
  rw [← ht0, ← ht1]
  obtain ⟨st', hrun, hleaves⟩ := Mips.Runs.compute (M := M) (r := .t2)
    (.word op .t2 .t0 .t1) rfl rfl hrests (by decide) (by decide) (by decide)
  exact ⟨st', hpops.append hrun, hleaves⟩

theorem combineSingles_runs {op : SingleOp} (h : combineSingles op s = .ok code t)
    (st : CpuState) :
    ∃ st', M.Runs code st st' ∧ st.Leaves (st.get .sp + 4#32)
      (M.arithmetic.single op (st.memory.word (st.get .sp + 4#32)) st.top) st' := by
  simp only [combineSingles, bind_ok, pure_ok] at h
  obtain ⟨right, _, hright, left, _, hleft, push, _, hpush, rfl, _⟩ := h
  rw [Lower.lines_of_perform hright, Lower.lines_of_perform hleft, Lower.lines_of_perform hpush]
  obtain ⟨u, hpops, hrests, hf0, hf1⟩ := Mips.Runs.popSingles (M := M) st
  rw [← hf0, ← hf1]
  obtain ⟨st', hrun, hleaves⟩ := Mips.Runs.computeSingle (M := M) (r := .f2)
    (.single op .f2 .f0 .f1) rfl rfl hrests
  exact ⟨st', hpops.append hrun, hleaves⟩

theorem choose_runs (hlabels : M.code.labels.Nodup) (flag : Bool) (name : String) (st : CpuState) :
    M.Runs [.instr (.branchFlag flag name), .instr (.constant .t0 0), .label name] st
      (if st.flag = flag then st else st.set .t0 0) := by
  intro i hat
  have hbranch : M.code[i]? = some (.instr (.branchFlag flag name)) := hat.get
  have hend : M.code[i + 1 + 1]? = some (.label name) := hat.tail.tail.get
  have hbehind := Mips.step_label hend
  by_cases hflag : st.flag = flag
  · rw [if_pos hflag]
    refine .step ?_ (.one (hbehind st))
    rw [Mips.step, hbranch, ← Mips.goto_eq hlabels hend st]
    exact if_pos hflag
  · rw [if_neg hflag]
    have hclear : M.step ⟨i + 1, st⟩ = some ⟨i + 1 + 1, st.set .t0 0⟩ :=
      Mips.step_straight rfl hat.tail.get st
    refine .step ?_ (.step hclear (.one (hbehind _)))
    rw [Mips.step, hbranch]
    exact if_neg hflag

theorem test_runs (hlabels : M.code.labels.Nodup) (op : SingleTest) (first second : Reg)
    (flag : Bool) (name : String) {st u : CpuState} {a : Word} (hrests : st.Rests a u) :
    ∃ u', M.Runs [.instr (.testSingle op first second), .instr (.constant .t0 1),
        .instr (.branchFlag flag name), .instr (.constant .t0 0), .label name] u u' ∧
      st.Rests a u' ∧
      u'.get .t0 = .ofBool (M.arithmetic.test op (u.singles first) (u.singles second) = flag) := by
  generalize htested : (u.setFlag
    (M.arithmetic.test op (u.singles first) (u.singles second))).set .t0 1 = tested
  have hrun : M.Runs [.instr (.testSingle op first second), .instr (.constant .t0 1)] u tested :=
    htested ▸ .cons rfl (.straight rfl)
  have hrests : st.Rests a tested := htested ▸ (hrests.setFlag _).set (by decide) (by decide) _
  have hflag : tested.flag = M.arithmetic.test op (u.singles first) (u.singles second) := by
    rw [← htested]
    rfl
  have hchoose := choose_runs hlabels flag name tested
  rw [← hflag]
  by_cases htaken : tested.flag = flag
  · rw [if_pos htaken] at hchoose
    refine ⟨tested, hrun.append hchoose, hrests, ?_⟩
    rw [decide_eq_true htaken, ← htested]
    exact get_set_self _ _ _ (by decide)
  · rw [if_neg htaken] at hchoose
    refine ⟨_, hrun.append hchoose, hrests.set (by decide) (by decide) _, ?_⟩
    rw [decide_eq_false htaken]
    exact get_set_self _ _ _ (by decide)

theorem test_holds (arithmetic : Arithmetic) (comparison : Comparison) (singles : Reg → Word) :
    decide (arithmetic.test comparison.test.1 (singles comparison.test.2.1)
        (singles comparison.test.2.2.1) = comparison.test.2.2.2) =
      comparison.onSingles arithmetic (singles .f0) (singles .f1) := by
  cases comparison with
  | lt | le | gt | ge | eq => exact Bool.decide_eq_true
  | ne => exact Bool.decide_eq_false

theorem compareSingles_runs (hlabels : M.code.labels.Nodup) {comparison : Comparison}
    (h : body.compareSingles comparison s = .ok code t) (st : CpuState) :
    ∃ st', M.Runs code st st' ∧ st.Leaves (st.get .sp + 4#32)
      (.ofBool (comparison.onSingles M.arithmetic (st.memory.word (st.get .sp + 4#32)) st.top))
      st' := by
  simp only [compareSingles, bind_ok, pure_ok, Body.requestLabel_ok, and_assoc, exists_and_left,
    exists_eq_left] at h
  obtain ⟨right, _, hright, left, _, hleft, push, _, hpush, rfl, _⟩ := h
  rw [Lower.lines_of_perform hright, Lower.lines_of_perform hleft, Lower.lines_of_perform hpush]
  obtain ⟨u, hpops, hrests, hf0, hf1⟩ := Mips.Runs.popSingles (M := M) st
  obtain ⟨u', htest, hrests', ht0⟩ := test_runs hlabels _ _ _ _ _ hrests
  refine ⟨_, (hpops.append htest).append (.pushWord u' (by decide)), ?_⟩
  rw [ht0, test_holds, hf0, hf1]
  exact hrests'.push _

theorem combine_runs (hlabels : M.code.labels.Nodup) {pos : Position} {op : BinaryOp} {operand : Ty}
    (h : body.combine pos op operand s = .ok code t) (st : CpuState) :
    ∃ st', M.Runs code st st' ∧ st.Leaves (st.get .sp + 4#32)
      (if operand.isFloat then
        op.onSingles M.arithmetic (st.memory.word (st.get .sp + 4#32)) st.top
      else op.onWords M.arithmetic (st.memory.word (st.get .sp + 4#32)) st.top) st' := by
  unfold combine at h
  by_cases hfloat : operand.isFloat
  · rw [if_pos hfloat] at h ⊢
    cases op with
    | add | sub | mul | div => exact combineSingles_runs h st
    | compare comparison => exact compareSingles_runs hlabels h st
    | and | or => exact absurd h Lower.refuse_ok
  · rw [if_neg hfloat] at h ⊢
    have hwords : op.wordOp.apply M.arithmetic = op.onWords M.arithmetic := by
      cases op with
      | compare comparison => cases comparison <;> rfl
      | _ => rfl
    rw [← hwords]
    exact combineWords_runs h st

end Body

end

/-! ## The code of an expression -/

/-- Room for some words below `sp`, where none of the words at the addresses `reads` is. -/
structure Room (sp : Word) (words : Nat) (reads : List Word) : Prop where
  fits : 4 * words ≤ sp.toNat
  unread : ∀ a ∈ reads, ∀ b, Memory.Covers a b → ¬ Below sp (4 * words) b

namespace Room

variable {sp : Word} {m n : Nat} {reads others : List Word}

theorem mono (h : Room sp m reads) (hle : n ≤ m) (hsub : others ⊆ reads) : Room sp n others := by
  have hfits := h.fits
  refine ⟨by omega, fun a ha b hcovers hbelow => h.unread a (hsub ha) b hcovers ?_⟩
  rw [Below] at hbelow ⊢
  omega

theorem next (h : Room sp (m + 1) reads) : Room (sp - 4#32) m reads := by
  have hfits := h.fits
  refine ⟨by bv_omega, fun a ha b hcovers hbelow => h.unread a ha b hcovers ?_⟩
  rw [Below] at hbelow ⊢
  bv_omega

end Room

/-- What the expressions of a function are evaluated in. -/
def Mips.valuation (M : Mips) (body : Body) (st : CpuState) : Valuation :=
  ⟨M.arithmetic, body.env.symbols, M.addressOf body.storage (st.get .fp), st.memory⟩

/-- From every state with room for its intermediate values, the code pushes the value of `e`. -/
def Mips.Evaluates (M : Mips) (body : Body) (e : Expr) (code : Code) : Prop :=
  ∀ st : CpuState, Room (st.get .sp) e.stackWords (e.reads (M.valuation body st)) →
    ∃ st', M.Runs code st st' ∧ st.Pushed (4 * e.stackWords) (e.value (M.valuation body st)) st'

namespace Mips

variable {M : Mips} {body : Body}

theorem valuation_eq {st st' : CpuState} (h : st'.get .fp = st.get .fp) :
    M.valuation body st' = { M.valuation body st with memory := st'.memory } := by
  rw [valuation, valuation, h]

/-- Two operands, one after the other, and what may then replace them. The first one may use the
room of the second. -/
theorem Evaluates.both {left right : Expr} {leftCode rightCode : Code}
    (hleft : M.Evaluates body left leftCode) (hright : M.Evaluates body right rightCode)
    (hpos : 1 ≤ left.stackWords) (st : CpuState)
    (hroom : Room (st.get .sp) (max left.stackWords (right.stackWords + 1))
      (left.reads (M.valuation body st) ++ right.reads (M.valuation body st))) :
    ∃ st', M.Runs (leftCode ++ rightCode) st st' ∧
      st'.memory.word (st'.get .sp + 4#32) = left.value (M.valuation body st) ∧
      st'.top = right.value (M.valuation body st) ∧
      ∀ w st'', st'.Leaves (st'.get .sp + 4#32) w st'' →
        st.Pushed (4 * max left.stackWords (right.stackWords + 1)) w st'' := by
  obtain ⟨st₁, hrun₁, hpushed₁⟩ := hleft st
    (hroom.mono (Nat.le_max_left _ _) (List.subset_append_left _ _))
  -- what the right operand reads is out of reach of the left one
  have hapart := hroom.mono (Nat.le_max_left _ _) (List.subset_append_right _ _)
  obtain ⟨hvalue, hreads⟩ := right.value_congr (v := M.valuation body st) (m := st₁.memory)
    fun a ha b hcovers => hpushed₁.kept b (hapart.unread a ha b hcovers)
  rw [← valuation_eq hpushed₁.fp] at hvalue hreads
  have hrest : Room (st₁.get .sp) right.stackWords (right.reads (M.valuation body st₁)) := by
    rw [hpushed₁.sp, hreads]
    exact (hroom.mono (Nat.le_max_right _ _) (List.subset_append_right _ _)).next
  obtain ⟨st₂, hrun₂, hpushed₂⟩ := hright st₁ hrest
  have hfits := hapart.fits
  refine ⟨st₂, hrun₁.append hrun₂, hpushed₁.second hpushed₂ (by omega), hpushed₂.top.trans hvalue,
    fun w st'' hleaves => ?_⟩
  have hmax : max (4 * left.stackWords) (4 * right.stackWords + 4) =
      4 * max left.stackWords (right.stackWords + 1) := by omega
  rw [← hmax]
  exact hpushed₁.combine hpushed₂ hleaves (hmax ▸ hroom.fits)

end Mips

namespace Expr

theorem stackWords_pos {e : Expr} (h : e.callees = []) : 1 ≤ e.stackWords := by
  induction e using Expr.induct with
  | literal | address => exact Nat.le_refl 1
  | deref node operand ih | not node operand ih => exact ih h
  | index node left right ihleft _ | binary node op left right ihleft _ =>
    have hleft := ihleft (List.append_eq_nil_iff.1 h).1
    simp only [stackWords]
    omega
  | call node callee args =>
    exact absurd h (List.append_ne_nil_of_right_ne_nil _ (List.cons_ne_nil _ _))

theorem evaluates {M : Mips} {body : Body} (hlabels : M.code.labels.Nodup) {e : Expr}
    (hcalls : e.callees = [])
    (htypes : ∀ e' ∈ e.subexprs, body.env.types.get? e'.node.id = some (e'.ty body.env.symbols))
    {s t : LowerState} {code : Code} (h : e.lower body s = .ok code t) : M.Evaluates body e code := by
  induction e using Expr.induct generalizing s t code with
  | literal node value =>
    intro st hroom
    obtain ⟨st', hrun, hleaves⟩ := Literal.runs h st
    exact ⟨st', hrun, hleaves.pushed (Nat.le_refl 4) hroom.fits⟩
  | address node id =>
    intro st hroom
    obtain ⟨st', hrun, hleaves⟩ := Body.pushAddress_runs h st
    exact ⟨st', hrun, hleaves.pushed (Nat.le_refl 4) hroom.fits⟩
  | deref node operand ih =>
    simp only [Expr.lower, bind_ok, pure_ok, Environment.typeOf_ok] at h
    obtain ⟨place, _, hplace, ty, _, _, load, _, hload, rfl, _⟩ := h
    intro st hroom
    have hpos := operand.stackWords_pos hcalls
    obtain ⟨st₁, hrun₁, hpushed⟩ := ih hcalls (List.forall_mem_cons.1 htypes).2 hplace st
      (hroom.mono (Nat.le_refl _) (List.subset_cons_self _ _))
    obtain ⟨st₂, hrun₂, hleaves⟩ := Body.load_runs hload st₁
    -- The place was not written to while its address was computed.
    have hvalue : st₁.memory.word st₁.top =
        (Expr.deref node operand).value (M.valuation body st) := by
      rw [hpushed.top]
      exact Memory.word_congr fun b hcovers =>
        hpushed.kept b (hroom.unread _ List.mem_cons_self b hcovers)
    rw [hvalue] at hleaves
    exact ⟨st₂, hrun₁.append hrun₂, hpushed.replace hleaves (Nat.mul_le_mul_left 4 hpos) hroom.fits⟩
  | index node base offset ihbase ihoffset =>
    obtain ⟨hhere, hparts⟩ := List.forall_mem_cons.1 htypes
    obtain ⟨htbase, htoffset⟩ := List.forall_mem_append.1 hparts
    obtain ⟨hcbase, hcoffset⟩ := List.append_eq_nil_iff.1 hcalls
    simp only [Expr.lower, bind_ok, pure_ok, Environment.typeOf_ok] at h
    obtain ⟨ty, _, ⟨hty, rfl⟩, size, _, hsize, baseCode, _, hbase, offsetCode, _, hoffset, select, _,
      hselect, rfl, _⟩ := h
    intro st hroom
    obtain ⟨st₁, hrun₁, hsecond, htop, hpushed⟩ :=
      (ihbase hcbase htbase hbase).both (ihoffset hcoffset htoffset hoffset)
        (base.stackWords_pos hcbase) st hroom
    obtain ⟨st₂, hrun₂, hleaves⟩ := Body.select_runs hselect st₁
    have hbytes : ((Expr.index node base offset).ty body.env.symbols).targetBytes = size := by
      rw [← Option.some.inj (hty.symm.trans hhere)]
      exact Body.targetBytes_of_elementSize hsize
    rw [hsecond, htop, ← hbytes] at hleaves
    exact ⟨st₂, hrun₁.append hrun₂, hpushed _ st₂ hleaves⟩
  | binary node op left right ihleft ihright =>
    obtain ⟨htleft, htright⟩ := List.forall_mem_append.1 (List.forall_mem_cons.1 htypes).2
    obtain ⟨hcleft, hcright⟩ := List.append_eq_nil_iff.1 hcalls
    simp only [Expr.lower, bind_ok, pure_ok, Environment.typeOf_ok] at h
    obtain ⟨leftCode, _, hleft, rightCode, _, hright, operand, _, ⟨hty, rfl⟩, combine, _, hcombine,
      rfl, _⟩ := h
    intro st hroom
    obtain ⟨st₁, hrun₁, hsecond, htop, hpushed⟩ :=
      (ihleft hcleft htleft hleft).both (ihright hcright htright hright)
        (left.stackWords_pos hcleft) st hroom
    obtain ⟨st₂, hrun₂, hleaves⟩ := Body.combine_runs hlabels hcombine st₁
    have hoperand : operand = left.ty body.env.symbols :=
      Option.some.inj (hty.symm.trans (htleft left left.self_mem_subexprs))
    rw [hsecond, htop, hoperand] at hleaves
    exact ⟨st₂, hrun₁.append hrun₂, hpushed _ st₂ hleaves⟩
  | not node operand ih =>
    simp only [Expr.lower, bind_ok, pure_ok] at h
    obtain ⟨inner, _, hinner, invert, _, hinvert, rfl, _⟩ := h
    intro st hroom
    have hpos := operand.stackWords_pos hcalls
    obtain ⟨st₁, hrun₁, hpushed⟩ := ih hcalls (List.forall_mem_cons.1 htypes).2 hinner st hroom
    obtain ⟨st₂, hrun₂, hleaves⟩ := Body.invert_runs hinvert st₁
    rw [hpushed.top] at hleaves
    exact ⟨st₂, hrun₁.append hrun₂, hpushed.replace hleaves (Nat.mul_le_mul_left 4 hpos) hroom.fits⟩
  | call node callee args =>
    exact absurd hcalls (List.append_ne_nil_of_right_ne_nil _ (List.cons_ne_nil _ _))

theorem argCount_eq_zero {e e' : Expr} (h : e.callees = []) (he' : e' ∈ e.subexprs) :
    e'.argCount = 0 := by
  induction e using Expr.induct with
  | literal | address =>
    rw [List.mem_singleton.1 he']
    rfl
  | deref node operand ih | not node operand ih =>
    rcases List.mem_cons.1 he' with rfl | he'
    · rfl
    · exact ih h he'
  | index node left right ihleft ihright | binary node op left right ihleft ihright =>
    obtain ⟨hleft, hright⟩ := List.append_eq_nil_iff.1 h
    rcases List.mem_cons.1 he' with rfl | he'
    · rfl
    · exact (List.mem_append.1 he').elim (ihleft hleft) (ihright hright)
  | call node callee args =>
    exact absurd h (List.append_ne_nil_of_right_ne_nil _ (List.cons_ne_nil _ _))

end Expr

/-- The labels of straight code are those of its comparisons, issued one after the other. -/
theorem Straight.labels_eq {body : Body} {allowed : Nat → Prop} {s t : LowerState} {code : Code}
    {callees : List SymbolId} (h : Straight body allowed s code callees t) :
    ∃ n, t.labels.requested =
        List.replicate n (body.innerName "compare") ++ s.labels.requested ∧
      code.labels = (List.range' (s.labels.requested.count (body.innerName "compare")) n).map
        (LabelSupply.label (body.innerName "compare")) := by
  induction h with
  | nil => exact ⟨0, rfl, rfl⟩
  | op _ hop => exact ⟨0, rfl, Code.labels_of_silent (StackOp.silent_of_moves hop)⟩
  | plain | address | call => exact ⟨0, rfl, rfl⟩
  | choose hlabel =>
    refine ⟨1, rfl, ?_⟩
    rw [hlabel]
    rfl
  | append _ _ ih ih' =>
    obtain ⟨m, hm, hlabels⟩ := ih
    obtain ⟨n, hn, hlabels'⟩ := ih'
    refine ⟨m + n, ?_, ?_⟩
    · rw [hn, hm, ← List.append_assoc, List.replicate_append_replicate, Nat.add_comm]
    · rw [hm, List.count_append, List.count_replicate_self, Nat.add_comm] at hlabels'
      rw [Code.labels_append, hlabels, hlabels', ← List.map_append, List.range'_append_1]

theorem Expr.labels_nodup {body : Body} {e : Expr} {s t : LowerState} {code : Code}
    (h : e.lower body s = .ok code t) : code.labels.Nodup := by
  obtain ⟨n, _, hlabels⟩ := (Expr.straight h fun e _ => e.drops_true body).labels_eq
  have hname : LabelSupply.isNumbered (body.innerName "compare") = false := by
    rw [Body.innerName, LabelSupply.isNumbered_dot]
    decide
  rw [hlabels]
  exact List.Nodup.map (fun _ _ heq => (LabelSupply.label_inj hname hname heq).2)
    List.nodup_range'

/-! ## Expressions of accepted programs -/

section

variable {symbols : SymbolTable} {reach : List SymbolId}

def Expr.IsTyped (symbols : SymbolTable) (reach : List SymbolId) (e : Expr) : Prop :=
  ∃ ty, WellTyped symbols reach (.place e ty) ∨ WellTyped symbols reach (.value e ty)

theorem WellTyped.parts {judgement : Judgement} (h : WellTyped symbols reach judgement) :
    ∀ e ∈ judgement.subexprs, e.IsTyped symbols reach := by
  induction h with
  | name hid hsize => exact List.forall_mem_singleton.2 ⟨_, .inl (.name hid hsize)⟩
  | element hbase hoffset ihbase ihoffset =>
    exact List.forall_mem_cons.2 ⟨⟨_, .inl (.element hbase hoffset)⟩,
      List.forall_mem_append.2 ⟨ihbase, ihoffset⟩⟩
  | literal => exact List.forall_mem_singleton.2 ⟨_, .inr .literal⟩
  | load hplace hscalar ih => exact List.forall_mem_cons.2 ⟨⟨_, .inr (.load hplace hscalar)⟩, ih⟩
  | binary hleft hright hcombine ihleft ihright =>
    exact List.forall_mem_cons.2 ⟨⟨_, .inr (.binary hleft hright hcombine)⟩,
      List.forall_mem_append.2 ⟨ihleft, ihright⟩⟩
  | negation hoperand ih => exact List.forall_mem_cons.2 ⟨⟨_, .inr (.negation hoperand)⟩, ih⟩
  | call hid hcallee hresult hargs ih =>
    exact List.forall_mem_cons.2 ⟨⟨_, .inr (.call hid hcallee hresult hargs)⟩, ih⟩
  | nil => exact fun _ h => absurd h List.not_mem_nil
  | cons _ _ _ ih ihs => exact List.forall_mem_append.2 ⟨ih, ihs⟩

theorem StmtTyped.parts {result : Ty} {phrase : StmtPhrase}
    (h : StmtTyped symbols reach result phrase) : ∀ e ∈ phrase.exprs, e.IsTyped symbols reach := by
  induction h with
  | var | nil => exact fun _ h => absurd h List.not_mem_nil
  | call hcall => exact hcall.parts
  | assign htarget hsource _ => exact List.forall_mem_append.2 ⟨htarget.parts, hsource.parts⟩
  | branch hcondition _ _ ihthen ihelse =>
    exact List.forall_mem_append.2 ⟨List.forall_mem_append.2 ⟨hcondition.parts, ihthen⟩, ihelse⟩
  | loop hcondition _ ih => exact List.forall_mem_append.2 ⟨hcondition.parts, ih⟩
  | ret hvalue => exact hvalue.parts
  | block _ ih => exact ih
  | cons _ _ ih ihs => exact List.forall_mem_append.2 ⟨ih, ihs⟩

end

theorem Expr.IsTyped.lowers {body : Body} {reach : List SymbolId} {e : Expr}
    (h : e.IsTyped body.env.symbols reach) (hcalls : e.callees = [])
    (hstorage : ∀ id ∈ reach, (body.env.symbols.get id).ty.size?.isSome →
      (body.storage.locate? id).isSome)
    (htypes : ∀ e' ∈ e.subexprs, body.env.types.get? e'.node.id = some (e'.ty body.env.symbols))
    (s : LowerState) : ∃ code t, e.lower body s = .ok code t := by
  have hready : ∀ e' ∈ e.subexprs, e'.Ready body := by
    intro e' he'
    refine ⟨htypes e' he', ?_⟩
    rw [Expr.argCount_eq_zero hcalls he', Nat.zero_mul]
    decide
  have hgrows : e.Grows body := by
    obtain ⟨ty, h | h⟩ := h
    · exact h.lowers hstorage hready e e.self_mem_subexprs
    · exact h.lowers hstorage hready e e.self_mem_subexprs
  obtain ⟨code, t, hlower, _⟩ := hgrows s (Nat.zero_le _)
  exact ⟨code, t, hlower⟩

theorem Memory.exists_of_covers {a b : Word} (h : Memory.Covers a b) :
    ∃ i < 4, b = a + .ofNat 32 i := by
  refine ⟨(b - a).toNat, h, ?_⟩
  rw [BitVec.ofNat_toNat, BitVec.setWidth_eq, BitVec.add_comm, BitVec.sub_add_cancel]

/-- The code of an expression without calls computes its value. The lines go from any state that has
room below the stack pointer, where nothing that the expression reads is kept, to a state with the
value on top of the stack, and nothing but this room is changed. -/
theorem expressions_compute_their_values {σ : Type} [TokenStream σ] {stream : σ} {entry : String}
    (hparse : (parse stream).log = [])
    (hcheck : (check (parse stream).symbols entry (parse stream).tree).log = [])
    (f : FunctionSite (Environment.ofStream stream entry)) {before after : List Decl}
    (hsplit : (parse stream).tree.decls = before ++ .func f.definition :: after) {ahead : Segments}
    (hreached : (Environment.ofStream stream entry).lowerOnto Storage.empty before
      LowerState.initial = .ok (ahead, f.storage) f.state)
    (hframe : StackFrame.ofFunction (Environment.ofStream stream entry).symbols f.definition =
      .ok f.frame)
    {e : Expr} (he : e ∈ f.definition.body.exprs) (hcalls : e.callees = []) (s : LowerState) :
    ∃ code t, e.lower f.body s = .ok code t ∧ code.labels.Nodup ∧
      ∀ M : Mips, M.code.labels.Nodup → ∀ st : CpuState,
        4 * e.stackWords ≤ (st.get .sp).toNat →
        (∀ a ∈ e.reads (M.valuation f.body st), ∀ i < 4,
          ¬ Below (st.get .sp) (4 * e.stackWords) (a + .ofNat 32 i)) →
        ∃ st', M.Runs code st st' ∧
          st.Pushed (4 * e.stackWords) (e.value (M.valuation f.body st)) st' := by
  obtain ⟨node, decls, htree, haccepted⟩ : ∃ node decls, (parse stream).tree = .program node decls ∧
      Accepted (Environment.ofStream stream entry) (fun _ => True) decls :=
    accepted_of_clean hparse hcheck fun _ _ _ => trivial
  rw [htree] at hsplit
  have hsplit : decls = before ++ .func f.definition :: after := hsplit
  have htyped := haccepted.typed
  rw [hsplit] at htyped
  obtain ⟨htail, hcovers⟩ := htyped.split haccepted.covers hreached
  have hentered : ∀ e' ∈ e.subexprs, f.body.env.types.get? e'.node.id =
      some (e'.ty f.body.env.symbols) := by
    intro e' he'
    refine haccepted.entered f.definition ?_ e'
      (StmtPhrase.subexprs_subset (.block f.definition.body) he he')
    rw [hsplit]
    exact List.mem_append_right _ List.mem_cons_self
  have hlower : ∃ code t, e.lower f.body s = .ok code t := by
    cases htail with
    | func hfunc _ =>
      obtain ⟨frame, hframe', hslots⟩ := StackFrame.ofFunction_total hfunc.params hfunc.locals
      obtain rfl : frame = f.frame := Except.ok.inj (hframe'.symm.trans hframe)
      have hstorage := (hcovers.func hfunc).enter hslots
      rw [List.append_assoc] at hstorage
      exact @Expr.IsTyped.lowers f.body _ _ (hfunc.body.parts e he) hcalls hstorage hentered s
  obtain ⟨code, t, hlower⟩ := hlower
  refine ⟨code, t, hlower, Expr.labels_nodup hlower, fun M hlabels st hfits hunread => ?_⟩
  refine Expr.evaluates hlabels hcalls hentered hlower st ⟨hfits, fun a ha b hcovers => ?_⟩
  obtain ⟨i, hi, rfl⟩ := Memory.exists_of_covers hcovers
  exact hunread a ha i hi

namespace FunctionSite

variable {env : Environment} {before : List Decl} {definition : FuncDef}

def behind? (env : Environment) (before : List Decl) (definition : FuncDef) :
    Option (FunctionSite env) :=
  match env.lowerOnto Storage.empty before LowerState.initial,
    StackFrame.ofFunction env.symbols definition with
  | .ok (_, storage) s, .ok frame => some ⟨definition, storage, s, frame⟩
  | _, _ => none

theorem behind?_eq_some {f : FunctionSite env} (h : behind? env before definition = some f) :
    f.definition = definition ∧
      (∃ ahead, env.lowerOnto Storage.empty before LowerState.initial =
        .ok (ahead, f.storage) f.state) ∧
      StackFrame.ofFunction env.symbols definition = .ok f.frame := by
  rw [behind?] at h
  split at h
  · rename_i ahead storage s frame hreached hframe
    cases h
    exact ⟨rfl, ⟨ahead, hreached⟩, hframe⟩
  · cases h

end FunctionSite

def bounded : String :=
  "array a:float[2];func f(x:float):bool\x7breturn not(x>a[1]);\x7d"

namespace bounded

/-- Only `a[1]` is not zero. Of two single precision numbers the lower pattern is the lower one. -/
def state : CpuState where
  words := fun r => if r = .sp then 4096 else if r = .fp then 8192 else 0
  singles := fun _ => 0
  flag := false
  memory := fun b => if b = 16388 then 1 else 0

def machine (code : Code) : Mips where
  code := code
  arithmetic := ⟨fun a _ => a, fun _ a _ => a, fun _ a b => decide (a.toNat < b.toNat)⟩
  static := fun _ => 16384
  address := fun _ => 0
  line := fun _ => 0

end bounded

theorem bounded_computes_negation : ∃ f : FunctionSite (.ofStream (Scanner.ofText bounded) "main"),
    ∃ e ∈ f.definition.body.exprs, e.callees = [] ∧ e.stackWords = 3 ∧
      e.reads ((bounded.machine []).valuation f.body bounded.state) = [8192, 16388] ∧
      ∃ code t, e.lower f.body LowerState.initial = .ok code t ∧
        ∃ st', (bounded.machine code).Runs code bounded.state st' ∧ st'.top = 1 := by
  have hfacts : (parse (Scanner.ofText bounded)).log = [] ∧
      (check (parse (Scanner.ofText bounded)).symbols "main" (Tree.ofText bounded)).log = [] ∧
      ∃ definition ∈ (((Tree.ofText bounded).decls.drop 1).head?.bind Decl.definition?).toList,
        ∃ f ∈ (FunctionSite.behind? (.ofStream (Scanner.ofText bounded) "main")
          ((Tree.ofText bounded).decls.take 1) definition).toList,
          ∃ e ∈ f.definition.body.exprs, e.callees = [] ∧ e.stackWords = 3 ∧
            e.reads ((bounded.machine []).valuation f.body bounded.state) = [8192, 16388] ∧
            e.value ((bounded.machine []).valuation f.body bounded.state) = 1 := by
    decide +kernel
  obtain ⟨hparse, hcheck, definition, hdefinition, f, hf, e, he, hcalls, hwords, hreads, hvalue⟩ :=
    hfacts
  obtain ⟨decl, hdecl, hfunc⟩ := Option.bind_eq_some_iff.1 (Option.mem_toList.1 hdefinition)
  obtain ⟨after, hafter⟩ := List.head?_eq_some_iff.1 hdecl
  have hsplit : (Tree.ofText bounded).decls =
      (Tree.ofText bounded).decls.take 1 ++ .func definition :: after := by
    cases decl with
    | func other =>
      obtain rfl : other = definition := Option.some.inj hfunc
      exact (List.take_append_drop 1 _).symm.trans (congrArg _ hafter)
    | _ => cases hfunc
  obtain ⟨rfl, ⟨ahead, hreached⟩, hframe⟩ :=
    FunctionSite.behind?_eq_some (Option.mem_toList.1 hf)
  obtain ⟨code, t, hlower, hlabels, hruns⟩ := expressions_compute_their_values hparse hcheck f hsplit
    hreached hframe he hcalls LowerState.initial
  have hvaluation : (bounded.machine code).valuation f.body bounded.state =
      (bounded.machine []).valuation f.body bounded.state := rfl
  have hfits : 4 * e.stackWords ≤ (bounded.state.get .sp).toNat := by
    rw [hwords]
    decide
  have hunread : ∀ a ∈ e.reads ((bounded.machine code).valuation f.body bounded.state), ∀ i < 4,
      ¬ Below (bounded.state.get .sp) (4 * e.stackWords) (a + .ofNat 32 i) := by
    rw [hvaluation, hreads, hwords]
    exact List.forall_mem_cons.2
      ⟨by decide +kernel, List.forall_mem_singleton.2 (by decide +kernel)⟩
  obtain ⟨st', hst', hpushed⟩ := hruns (bounded.machine code) hlabels bounded.state hfits hunread
  rw [hvaluation, hvalue] at hpushed
  exact ⟨f, e, he, hcalls, hwords, hreads, code, t, hlower, st', hst', hpushed.top⟩

end MipsCompiler
