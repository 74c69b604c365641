import MipsCompiler.Assembly.Stack
import MipsCompiler.Proofs.Flow

set_option autoImplicit false

/-!
# Executing code

A machine with word registers, registers for single precision numbers, and memory that is addressed
by the byte. Arithmetic on words wraps around. What division and the operations on single precision
numbers give is left open, as is where static data and lines of code are in memory.

`Runs` is code that control goes through from its first line to the line behind its last one.
-/

namespace MipsCompiler

abbrev Byte := BitVec 8

/-- A byte at every address. -/
abbrev Memory := Word → Byte

namespace Memory

/-- The word at an address, lowest byte first. -/
def word (m : Memory) (a : Word) : Word :=
  m (a + 3#32) ++ m (a + 2#32) ++ m (a + 1#32) ++ m a

def Covers (a b : Word) : Prop :=
  (b - a).toNat < wordBytes

instance (a b : Word) : Decidable (Covers a b) :=
  inferInstanceAs (Decidable (_ < _))

def store (m : Memory) (a w : Word) : Memory := fun b =>
  if Covers a b then w.extractLsb' (8 * (b - a).toNat) 8 else m b

theorem covers_add {a i : Word} (hi : i.toNat < wordBytes) : Covers a (a + i) := by
  rw [Covers, BitVec.add_comm, BitVec.add_sub_cancel]
  exact hi

theorem store_of_not_covers {m : Memory} {a b : Word} (h : ¬ Covers a b) (w : Word) :
    m.store a w b = m b :=
  if_neg h

theorem word_congr {m m' : Memory} {a : Word} (h : ∀ b, Covers a b → m b = m' b) :
    m.word a = m'.word a := by
  have hzero := h _ (covers_add (i := 0#32) (by decide))
  rw [BitVec.add_zero] at hzero
  rw [word, word, hzero, h _ (covers_add (by decide)), h _ (covers_add (by decide)),
    h _ (covers_add (by decide))]

theorem word_store_of_apart {m : Memory} {a a' : Word}
    (h : ∀ b, Covers a b → ¬ Covers a' b) (w : Word) :
    (m.store a' w).word a = m.word a :=
  word_congr fun b hb => store_of_not_covers (h b hb) w

theorem word_store (m : Memory) (a w : Word) : (m.store a w).word a = w := by
  have hbyte {i : Word} (hi : i.toNat < wordBytes) :
      m.store a w (a + i) = w.extractLsb' (8 * i.toNat) 8 := by
    have hsub : a + i - a = i := by rw [BitVec.add_comm, BitVec.add_sub_cancel]
    rw [store, if_pos (covers_add hi), hsub]
  have hzero := hbyte (i := 0#32) (by decide)
  rw [BitVec.add_zero] at hzero
  rw [word, hzero, hbyte (by decide), hbyte (by decide), hbyte (by decide)]
  -- the four pieces are put together again
  change w.extractLsb' 24 8 ++ w.extractLsb' 16 8 ++ w.extractLsb' 8 8 ++ w.extractLsb' 0 8 = w
  rw [BitVec.extractLsb'_append_extractLsb'_eq_extractLsb' (by rfl),
    BitVec.extractLsb'_append_extractLsb'_eq_extractLsb' (by rfl),
    BitVec.extractLsb'_append_extractLsb'_eq_extractLsb' (by rfl)]
  exact BitVec.extractLsb'_eq_self

end Memory

structure CpuState where
  words : Reg → Word
  singles : Reg → Word
  flag : Bool
  memory : Memory

namespace CpuState

/-- Register `$0` is always zero. -/
def get (st : CpuState) (r : Reg) : Word :=
  if r = .zero then 0 else st.words r

def set (st : CpuState) (r : Reg) (w : Word) : CpuState :=
  { st with words := fun q => if q = r then w else st.words q }

def setSingle (st : CpuState) (r : Reg) (w : Word) : CpuState :=
  { st with singles := fun q => if q = r then w else st.singles q }

def storeWord (st : CpuState) (a w : Word) : CpuState :=
  { st with memory := st.memory.store a w }

def setFlag (st : CpuState) (flag : Bool) : CpuState :=
  { st with flag := flag }

section

variable (st : CpuState) (r q : Reg) (w a : Word) (b : Bool)

theorem get_set_self (h : r ≠ .zero) : (st.set r w).get r = w := by
  simp [get, set, h]

theorem get_set_of_ne (h : q ≠ r) : (st.set r w).get q = st.get q := by
  simp [get, set, h]

theorem set_get (h : r ≠ .zero) : st.set r (st.get r) = st := by
  have hwords : (fun q => if q = r then st.get r else st.words q) = st.words := by
    funext q
    by_cases hq : q = r
    · rw [if_pos hq, hq, get, if_neg h]
    · exact if_neg hq
  exact congrArg (fun words => { st with words := words }) hwords

@[simp] theorem get_setSingle : (st.setSingle r w).get q = st.get q := rfl
@[simp] theorem get_storeWord : (st.storeWord a w).get q = st.get q := rfl
@[simp] theorem get_setFlag : (st.setFlag b).get q = st.get q := rfl

@[simp] theorem singles_setSingle_self : (st.setSingle r w).singles r = w :=
  if_pos rfl

theorem singles_setSingle_of_ne (h : q ≠ r) : (st.setSingle r w).singles q = st.singles q :=
  if_neg h

@[simp] theorem singles_set : (st.set r w).singles q = st.singles q := rfl
@[simp] theorem singles_storeWord : (st.storeWord a w).singles q = st.singles q := rfl
@[simp] theorem singles_setFlag : (st.setFlag b).singles q = st.singles q := rfl

@[simp] theorem memory_set : (st.set r w).memory = st.memory := rfl
@[simp] theorem memory_setSingle : (st.setSingle r w).memory = st.memory := rfl
@[simp] theorem memory_storeWord : (st.storeWord a w).memory = st.memory.store a w := rfl
@[simp] theorem memory_setFlag : (st.setFlag b).memory = st.memory := rfl

@[simp] theorem flag_set : (st.set r w).flag = st.flag := rfl
@[simp] theorem flag_setFlag : (st.setFlag b).flag = b := rfl

end

end CpuState

/-- The operations that are not fixed here. -/
structure Arithmetic where
  divide : Word → Word → Word
  single : SingleOp → Word → Word → Word
  test : SingleTest → Word → Word → Bool

def Word.ofBool (b : Bool) : Word :=
  if b then 1 else 0

namespace ImmediateOp

def apply : ImmediateOp → Word → Word → Word
  | addi => (· + ·)
  | addiu => (· + ·)
  | addu => (· + ·)
  | subu => (· - ·)
  | xori => (· ^^^ ·)

end ImmediateOp

namespace WordOp

def apply (arithmetic : Arithmetic) : WordOp → Word → Word → Word
  | add => (· + ·)
  | sub => (· - ·)
  | mul => (· * ·)
  | div => arithmetic.divide
  | and => (· &&& ·)
  | or => (· ||| ·)
  | sge => fun a b => .ofBool (decide (b.toInt ≤ a.toInt))
  | sle => fun a b => .ofBool (decide (a.toInt ≤ b.toInt))
  | sne => fun a b => .ofBool (decide (a ≠ b))
  | seq => fun a b => .ofBool (decide (a = b))
  | sgt => fun a b => .ofBool (decide (b.toInt < a.toInt))
  | slt => fun a b => .ofBool (decide (a.toInt < b.toInt))

end WordOp

/-- A program in memory: `address` is where a line is, and `line` is the line that a jump to an
address goes to. -/
structure Mips where
  code : Code
  arithmetic : Arithmetic
  static : String → Word
  address : Nat → Word
  line : Word → Nat

structure Cpu where
  line : Nat
  state : CpuState

namespace Instr

/-- Whether an instruction only works on the state and goes on to the next line. -/
def isStraight : Instr → Bool
  | branchFlag _ _ => false
  | branchEqual _ _ _ => false
  | jump _ => false
  | jumpLink _ => false
  | jumpRegister _ => false
  | syscall => false
  | _ => true

end Instr

namespace Mips

variable (M : Mips)

def effect (st : CpuState) : Instr → CpuState
  | .immediate op target source value => st.set target (op.apply (st.get source) (.ofInt 32 value))
  | .loadWord target offset base => st.set target (st.memory.word (st.get base + .ofInt 32 offset))
  | .storeWord source offset base => st.storeWord (st.get base + .ofInt 32 offset) (st.get source)
  | .loadSingle target offset base =>
    st.setSingle target (st.memory.word (st.get base + .ofInt 32 offset))
  | .storeSingle source offset base =>
    st.storeWord (st.get base + .ofInt 32 offset) (st.singles source)
  | .constant target value => st.set target (.ofInt 32 value)
  | .singleConstant target value => st.setSingle target value.bits
  | .loadAddress target label => st.set target (M.static label)
  | .word op target left right =>
    st.set target (op.apply M.arithmetic (st.get left) (st.get right))
  | .single op target left right =>
    st.setSingle target (M.arithmetic.single op (st.singles left) (st.singles right))
  | .testSingle op left right =>
    st.setFlag (M.arithmetic.test op (st.singles left) (st.singles right))
  | .service number => st.set .v0 (.ofNat 32 number)
  | _ => st

def goto (name : String) (st : CpuState) : Option Cpu :=
  (M.code.findIdx? (· = .label name)).map (⟨·, st⟩)

/-- Executes one line. There is no step from lines that leave the program. -/
def step (cpu : Cpu) : Option Cpu :=
  match M.code[cpu.line]? with
  | some (.label _) => some ⟨cpu.line + 1, cpu.state⟩
  | some (.instr (.branchFlag flag name)) =>
    if cpu.state.flag = flag then M.goto name cpu.state else some ⟨cpu.line + 1, cpu.state⟩
  | some (.instr (.branchEqual left right name)) =>
    if cpu.state.get left = cpu.state.get right then M.goto name cpu.state
    else some ⟨cpu.line + 1, cpu.state⟩
  | some (.instr (.jump name)) => M.goto name cpu.state
  | some (.instr (.jumpLink name)) =>
    M.goto name (cpu.state.set .ra (M.address (cpu.line + 1)))
  | some (.instr (.jumpRegister target)) => some ⟨M.line (cpu.state.get target), cpu.state⟩
  | some (.instr instruction) =>
    if instruction.isStraight then some ⟨cpu.line + 1, M.effect cpu.state instruction⟩ else none
  | _ => none

/-- Steps lead from one point of a run to another. -/
inductive Reaches : Cpu → Cpu → Prop
  | refl {a : Cpu} : Reaches a a
  | step {a b c : Cpu} : M.step a = some b → Reaches b c → Reaches a c

variable {M}

theorem Reaches.trans {a b c : Cpu} (h : M.Reaches a b) (h' : M.Reaches b c) : M.Reaches a c := by
  induction h with
  | refl => exact h'
  | step hstep _ ih => exact .step hstep (ih h')

theorem Reaches.one {a b : Cpu} (h : M.step a = some b) : M.Reaches a b :=
  .step h .refl

theorem step_label {i : Nat} {name : String} (h : M.code[i]? = some (.label name)) (st : CpuState) :
    M.step ⟨i, st⟩ = some ⟨i + 1, st⟩ := by
  simp only [Mips.step, h]

theorem step_straight {i : Nat} {instruction : Instr} (hstraight : instruction.isStraight)
    (h : M.code[i]? = some (.instr instruction)) (st : CpuState) :
    M.step ⟨i, st⟩ = some ⟨i + 1, M.effect st instruction⟩ := by
  cases instruction with
  | branchFlag | branchEqual | jump | jumpLink | jumpRegister | syscall => cases hstraight
  | _ => simp only [Mips.step, h, Instr.isStraight, if_true]

theorem goto_eq (hlabels : M.code.labels.Nodup) {i : Nat} {name : String}
    (h : M.code[i]? = some (.label name)) (st : CpuState) : M.goto name st = some ⟨i, st⟩ := by
  unfold goto
  cases hfind : M.code.findIdx? (· = .label name) with
  | none =>
    have hmem := List.findIdx?_eq_none_iff.1 hfind _ (List.mem_of_getElem? h)
    simp at hmem
  | some j =>
    obtain ⟨hlt, hj, _⟩ := List.findIdx?_eq_some_iff_getElem.1 hfind
    have hj : M.code[j]? = some (.label name) := by
      rw [List.getElem?_eq_getElem hlt, of_decide_eq_true hj]
    rw [Code.eq_of_label hlabels hj h]
    rfl

theorem step_jumpLink (hlabels : M.code.labels.Nodup) {i j : Nat} {name : String}
    (hi : M.code[i]? = some (.instr (.jumpLink name))) (hj : M.code[j]? = some (.label name))
    (st : CpuState) : M.step ⟨i, st⟩ = some ⟨j, st.set .ra (M.address (i + 1))⟩ := by
  simp only [step, hi]
  exact goto_eq hlabels hj _

theorem step_jumpRegister {i : Nat} {r : Reg} (h : M.code[i]? = some (.instr (.jumpRegister r)))
    (st : CpuState) : M.step ⟨i, st⟩ = some ⟨M.line (st.get r), st⟩ := by
  simp only [step, h]

/-- Wherever the code stands in the program, it leads from its start to its end. -/
def Runs (M : Mips) (code : Code) (st st' : CpuState) : Prop :=
  ∀ i, At M.code i code → M.Reaches ⟨i, st⟩ ⟨i + code.length, st'⟩

namespace Runs

variable {a b code : Code} {st st' st'' : CpuState}

theorem nil : M.Runs [] st st :=
  fun _ _ => .refl

theorem append (ha : M.Runs a st st') (hb : M.Runs b st' st'') : M.Runs (a ++ b) st st'' := by
  intro i h
  have hbehind := hb _ h.right
  rw [List.length_append, ← Nat.add_assoc]
  exact (ha i h.left).trans hbehind

theorem straight {instruction : Instr} (h : instruction.isStraight) :
    M.Runs [.instr instruction] st (M.effect st instruction) :=
  fun _ hat => .one (step_straight h hat.get st)

theorem cons {instruction : Instr} (h : instruction.isStraight)
    (hrest : M.Runs code (M.effect st instruction) st') :
    M.Runs (.instr instruction :: code) st st' :=
  (straight h).append hrest

end Runs

end Mips

/-! ## Steps of the evaluation stack -/

namespace CpuState

def top (st : CpuState) : Word :=
  st.memory.word (st.get .sp)

def push (st : CpuState) (w : Word) : CpuState :=
  (st.set .sp (st.get .sp - 4#32)).storeWord (st.get .sp - 4#32) w

def pop (st : CpuState) : CpuState :=
  st.set .sp (st.get .sp + 4#32)

section

variable (st : CpuState) (r : Reg) (w : Word)

@[simp] theorem sp_push : (st.push w).get .sp = st.get .sp - 4#32 :=
  get_set_self st .sp _ (by decide)

@[simp] theorem memory_push : (st.push w).memory = st.memory.store (st.get .sp - 4#32) w := rfl

theorem get_push_of_ne (h : r ≠ .sp) : (st.push w).get r = st.get r :=
  get_set_of_ne st .sp r _ h

@[simp] theorem sp_pop : st.pop.get .sp = st.get .sp + 4#32 :=
  get_set_self st .sp _ (by decide)

@[simp] theorem memory_pop : st.pop.memory = st.memory := rfl
@[simp] theorem singles_pop : st.pop.singles r = st.singles r := rfl

theorem get_pop_of_ne (h : r ≠ .sp) : st.pop.get r = st.get r :=
  get_set_of_ne st .sp r _ h

end

end CpuState

namespace Mips.Runs

variable {M : Mips} (st : CpuState) {r : Reg}

theorem pushWord (h : r ≠ .sp) : M.Runs (StackOp.pushWord r).lines st (st.push (st.get r)) := by
  have hstore : M.effect (st.set .sp (st.get .sp - 4#32)) (.storeWord r 0 .sp) =
      st.push (st.get r) := by
    rw [effect, CpuState.get_set_self st .sp _ (by decide), CpuState.get_set_of_ne st .sp r _ h]
    exact congrArg (CpuState.storeWord _ · _) (BitVec.add_zero _)
  exact .cons rfl (hstore ▸ .straight rfl)

theorem pushSingle : M.Runs (StackOp.pushSingle r).lines st (st.push (st.singles r)) := by
  have hstore : M.effect (st.set .sp (st.get .sp - 4#32)) (.storeSingle r 0 .sp) =
      st.push (st.singles r) := by
    rw [effect, CpuState.get_set_self st .sp _ (by decide)]
    exact congrArg (CpuState.storeWord _ · _) (BitVec.add_zero _)
  exact .cons rfl (hstore ▸ .straight rfl)

theorem popWord : M.Runs (StackOp.popWord r).lines st (st.set r st.top).pop := by
  have hload : M.effect st (.loadWord r 0 .sp) = st.set r st.top :=
    congrArg (fun a => st.set r (st.memory.word a)) (BitVec.add_zero _)
  exact .cons rfl (hload ▸ .straight rfl)

theorem popSingle : M.Runs (StackOp.popSingle r).lines st (st.setSingle r st.top).pop := by
  have hload : M.effect st (.loadSingle r 0 .sp) = st.setSingle r st.top :=
    congrArg (fun a => st.setSingle r (st.memory.word a)) (BitVec.add_zero _)
  exact .cons rfl (hload ▸ .straight rfl)

end Mips.Runs

end MipsCompiler
