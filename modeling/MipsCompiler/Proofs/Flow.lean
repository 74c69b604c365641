import MipsCompiler.Assembly.Instruction

set_option autoImplicit false

/-!
# Lines and their labels

The label that a line defines and the labels that it refers to, and where a piece of code stands
inside a larger one. If no label is defined twice, a jump has one place to go to.
-/

namespace MipsCompiler

namespace Reg

def generated : List Reg :=
  [zero, t0, t1, t2, f0, f1, f2, v0, sp, fp, ra]

def isGenerated (r : Reg) : Bool :=
  decide (r ∈ generated)

end Reg

namespace Instr

def registers : Instr → List Reg
  | immediate _ target source _ => [target, source]
  | loadWord target _ base => [target, base]
  | storeWord source _ base => [source, base]
  | loadSingle target _ base => [target, base]
  | storeSingle source _ base => [source, base]
  | constant target _ => [target]
  | singleConstant target _ => [target]
  | loadAddress target _ => [target]
  | word _ target left right => [target, left, right]
  | single _ target left right => [target, left, right]
  | testSingle _ left right => [left, right]
  | branchEqual left right _ => [left, right]
  | jumpRegister target => [target]
  | _ => []

def isGenerated (instruction : Instr) : Bool :=
  instruction.registers.all Reg.isGenerated

end Instr

namespace Line

def label? : Line → Option String
  | label name => some name
  | _ => none

def target? : Line → Option String
  | instr (.jump name) => some name
  | instr (.branchEqual _ _ name) => some name
  | instr (.branchFlag _ name) => some name
  | _ => none

def called? : Line → Option String
  | instr (.jumpLink name) => some name
  | _ => none

def loaded? : Line → Option String
  | instr (.loadAddress _ name) => some name
  | _ => none

def fallsThrough : Line → Bool
  | instr (.jump _) => false
  | _ => true

def operand? (line : Line) : Option String :=
  line.target?.or (line.called?.or line.loaded?)

def isVerbatim : Line → Bool
  | verbatim _ => true
  | _ => false

/-- Whether a line is a label or an instruction on registers of generated code. -/
def isGenerated : Line → Bool
  | label _ => true
  | instr instruction => instruction.isGenerated
  | verbatim _ => false

/-- Instructions of generated code that refer to no label. -/
def Silent (line : Line) : Prop :=
  ∃ instruction, line = .instr instruction ∧ line.operand? = none ∧ instruction.isGenerated

theorem isVerbatim_of_isGenerated {line : Line} (h : line.isGenerated) :
    line.isVerbatim = false := by
  cases line with
  | label | instr => rfl
  | verbatim => nomatch h

theorem operand?_eq_none {line : Line} :
    line.operand? = none ↔ line.target? = none ∧ line.called? = none ∧ line.loaded? = none := by
  simp [operand?]

theorem eq_label_of_label? {line : Line} {name : String} (h : line.label? = some name) :
    line = .label name := by
  cases line with
  | label other => exact congrArg Line.label (Option.some.inj h)
  | instr => nomatch h
  | verbatim => nomatch h

end Line

namespace Code

def labels (code : Code) : List String :=
  code.filterMap Line.label?

@[simp] theorem labels_nil : labels [] = [] :=
  rfl

@[simp] theorem labels_append (a b : Code) : labels (a ++ b) = labels a ++ labels b :=
  List.filterMap_append

@[simp] theorem labels_label (name : String) (code : Code) :
    labels (.label name :: code) = name :: labels code :=
  rfl

@[simp] theorem labels_instr (instruction : Instr) (code : Code) :
    labels (.instr instruction :: code) = labels code :=
  rfl

theorem mem_labels {code : Code} {name : String} : name ∈ labels code ↔ .label name ∈ code := by
  rw [labels, List.mem_filterMap]
  constructor
  · rintro ⟨line, hline, hlabel⟩
    exact Line.eq_label_of_label? hlabel ▸ hline
  · intro h
    exact ⟨_, h, rfl⟩

theorem labels_of_silent {code : Code} (h : ∀ line ∈ code, line.Silent) : labels code = [] := by
  refine List.filterMap_eq_nil_iff.2 fun line hline => ?_
  obtain ⟨instruction, rfl, _⟩ := h line hline
  rfl

theorem eq_of_label {code : Code} (h : (labels code).Nodup) {name : String} {i j : Nat}
    (hi : code[i]? = some (.label name)) (hj : code[j]? = some (.label name)) : i = j := by
  induction code generalizing i j with
  | nil => nomatch hi
  | cons line code ih =>
    have hmem {k : Nat} (hk : code[k]? = some (.label name)) : name ∈ labels code :=
      mem_labels.2 (List.mem_of_getElem? hk)
    cases i with
    | zero =>
      cases j with
      | zero => rfl
      | succ j =>
        obtain rfl : line = .label name := Option.some.inj hi
        exact absurd (hmem hj) (List.nodup_cons.1 h).1
    | succ i =>
      cases j with
      | zero =>
        obtain rfl : line = .label name := Option.some.inj hj
        exact absurd (hmem hi) (List.nodup_cons.1 h).1
      | succ j =>
        have hrest : (labels code).Nodup := by
          cases line with
          | label other => exact (List.nodup_cons.1 h).2
          | instr => exact h
          | verbatim => exact h
        exact congrArg Nat.succ (ih hrest hi hj)

end Code

section

variable {α : Type} {whole : List α} {i : Nat} {a b : List α} {x : α}

/-- A piece of a list that starts at index `i`. -/
def At (whole : List α) (i : Nat) (piece : List α) : Prop :=
  ∃ before after, whole = before ++ piece ++ after ∧ before.length = i

namespace At

theorem left (h : At whole i (a ++ b)) : At whole i a := by
  obtain ⟨before, after, rfl, rfl⟩ := h
  exact ⟨before, b ++ after, by simp, rfl⟩

theorem right (h : At whole i (a ++ b)) : At whole (i + a.length) b := by
  obtain ⟨before, after, rfl, rfl⟩ := h
  exact ⟨before ++ a, after, by simp, by simp⟩

theorem tail (h : At whole i (x :: a)) : At whole (i + 1) a :=
  @right _ _ _ [x] a h

theorem get (h : At whole i (x :: a)) : whole[i]? = some x := by
  obtain ⟨before, after, rfl, rfl⟩ := h
  simp

theorem exists_inside (h : At whole i a) (hb : b <:+: a) : ∃ j, At whole j b := by
  obtain ⟨before, after, rfl⟩ := hb
  exact ⟨_, h.left.right⟩

/-- The pieces of a branch, from its test `a` on, and the line behind it. -/
theorem of_branch {c : List α} {y z : α} (h : At whole i (a ++ b ++ [x, y] ++ c ++ [z])) :
    At whole i a ∧ At whole (i + a.length) b ∧ whole[i + a.length + b.length]? = some x ∧
      whole[i + a.length + b.length + 1]? = some y ∧
      At whole (i + a.length + b.length + 2) c ∧
      whole[i + a.length + b.length + 2 + c.length]? = some z ∧
      i + (a ++ b ++ [x, y] ++ c ++ [z]).length = i + a.length + b.length + 2 + c.length + 1 := by
  have hjump := h.left.left.right
  have helse := h.left.right
  have hend := h.right
  simp only [List.length_append, List.length_cons, List.length_nil, ← Nat.add_assoc]
    at hjump helse hend ⊢
  exact ⟨h.left.left.left.left, h.left.left.left.right, hjump.get, hjump.tail.get, helse, hend.get,
    trivial⟩

theorem of_loop {y z : α} (h : At whole i ([x] ++ a ++ b ++ [y, z])) :
    whole[i]? = some x ∧ At whole (i + 1) a ∧ At whole (i + 1 + a.length) b ∧
      whole[i + 1 + a.length + b.length]? = some y ∧
      whole[i + 1 + a.length + b.length + 1]? = some z ∧
      i + ([x] ++ a ++ b ++ [y, z]).length = i + 1 + a.length + b.length + 2 := by
  have hinner := h.left.right
  have hjump := h.right
  simp only [List.length_append, List.length_cons, List.length_nil, ← Nat.add_assoc]
    at hinner hjump ⊢
  exact ⟨h.left.left.left.get, h.left.left.right, hinner, hjump.get, hjump.tail.get, trivial⟩

end At

end

end MipsCompiler
