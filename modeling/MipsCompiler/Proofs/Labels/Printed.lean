import Mathlib.Data.List.Basic
import MipsCompiler.Proofs.Labels.Program

set_option autoImplicit false

/-!
# Labels of the text

The results on labels, control flow and the stack speak of the lines of a program before they are
printed. Here the text is read again. Its lines are those of the program, since no label, register
or number has a line feed in it; and the label that a line defines, or refers to, can be told from
the characters of the line.
-/

namespace MipsCompiler

/-- The characters of labels and mnemonics. -/
def isLabelPart (c : Char) : Bool :=
  Cursor.isWordPart c || c = '.'

def isLabel (l : String) : Bool :=
  l.toList.all isLabelPart

def Inline (text : String) : Prop :=
  '\n' ∉ text.toList

instance (text : String) : Decidable (Inline text) :=
  inferInstanceAs (Decidable ('\n' ∉ text.toList))

theorem Inline.append {a b : String} (ha : Inline a) (hb : Inline b) : Inline (a ++ b) := by
  rw [Inline, String.toList_append, List.mem_append]
  exact not_or.2 ⟨ha, hb⟩

theorem inline_of_isLabel {l : String} (h : isLabel l) : Inline l :=
  fun hmem => absurd (List.all_eq_true.1 h _ hmem) (by decide)

theorem inline_nat (n : Nat) : Inline n.repr := by
  intro hmem
  rw [Nat.toList_repr] at hmem
  exact absurd (Nat.isDigit_of_mem_toDigits (by decide) (by decide) hmem) (by decide)

theorem inline_int (z : Int) : Inline z.repr := by
  cases z with
  | ofNat n => exact inline_nat n
  | negSucc n => exact .append (a := "-") (by decide) (inline_nat (n + 1))

theorem isLabel_append {a b : String} (ha : isLabel a) (hb : isLabel b) : isLabel (a ++ b) := by
  rw [isLabel, String.toList_append, List.all_append]
  exact Bool.and_eq_true_iff.2 ⟨ha, hb⟩

theorem isLabel_dot {a b : String} (ha : isLabel a) (hb : isLabel b) : isLabel (a ++ "." ++ b) :=
  isLabel_append (isLabel_append ha rfl) hb

theorem isLabel_of_isName {name : String} (h : IsName name) : isLabel name := by
  refine List.all_eq_true.2 fun c hc => ?_
  rw [isLabelPart, List.all_eq_true.1 h.isWord c hc]
  rfl

theorem isLabel_label {name : String} (h : isLabel name) (n : Nat) :
    isLabel (LabelSupply.label name n) := by
  have hnumeral : isLabel (toString n) := by
    rw [isLabel, Nat.toString_eq_repr, Nat.toList_repr]
    refine List.all_eq_true.2 fun c hc => ?_
    have hdigit : c.isDigit := Nat.isDigit_of_mem_toDigits (by decide) (by decide) hc
    simp [isLabelPart, Cursor.isWordPart, Char.isAlphanum, hdigit]
  unfold LabelSupply.label
  split
  · exact h
  · exact isLabel_dot h hnumeral

theorem isLabel_codeLabel {s : Symbol} (h : IsName s.name) (entry : String) :
    isLabel (s.codeLabel entry) := by
  rcases s.codeLabel_eq entry with ⟨_, heq⟩ | heq
  · rw [heq]
    exact isLabel_of_isName h
  · rw [heq]
    exact isLabel_dot rfl (isLabel_of_isName h)

theorem isLabel_of_requests {env : Environment} {decl : Decl} {name : String}
    (h : decl.Requests env name) (hname : IsName (env.symbols.get decl.symbol).name) :
    isLabel name := by
  cases h with
  | var | array =>
    rw [Symbol.dataLabel_eq]
    exact isLabel_dot rfl (isLabel_of_isName hname)
  | start => exact isLabel_codeLabel hname _
  | finish => exact isLabel_append (isLabel_label (isLabel_codeLabel hname _) _) rfl
  | inner hsuffix =>
    have hinner : ∀ suffix ∈ innerNames, isLabel suffix := by decide
    exact isLabel_dot (isLabel_of_isName hname) (hinner _ hsuffix)

theorem Accepted.isLabel_of_defined {env : Environment} {node : Node} {decls : List Decl}
    {program : Program} (h : Accepted env IsName decls)
    (hlower : env.lower (.program node decls) = .ok program) :
    ∀ l ∈ program.definedLabels, isLabel l := by
  obtain ⟨segments, storage, t, hrun, rfl⟩ := Environment.lower_ok.1 hlower
  have hlaid := Laid.of_lowerOnto hrun
  have hlibrary : ∀ l ∈ Library.labels, isLabel l := by decide +kernel
  intro l hl
  have hissued (hpos : 0 < segments.dataLabels.count l + segments.code.labels.count l) :
      isLabel l := by
    have hcounts := hlaid.counts l
    have hmem : l ∈ t.labels.issued := List.count_pos_iff.1 (by omega)
    obtain ⟨name, n, hname, _, rfl⟩ := LabelSupply.exists_of_mem_issuedFor hmem
    obtain ⟨decl, hdecl, hrequest⟩ := hlaid.of_requested name hname
    exact isLabel_label (isLabel_of_requests hrequest (h.isName hdecl)) n
  simp only [Program.definedLabels, List.mem_append] at hl
  rcases hl with (hdata | hmem) | hcode
  · exact hissued (Nat.add_pos_left (List.count_pos_iff.2 hdata) _)
  · exact hlibrary l hmem
  · exact hissued (Nat.add_pos_right _ (List.count_pos_iff.2 hcode))

namespace PrintedLine

/-- The first word of a line, and the character behind it. -/
def opening (line : List Char) : String × Option Char :=
  (String.ofList (line.takeWhile isLabelPart), (line.dropWhile isLabelPart).head?)

def label? (line : List Char) : Option String :=
  if (opening line).2 = some ':' then some (opening line).1 else none

def references : List String :=
  ["la", "beq", "beqz", "bc1t", "bc1f", "j", "jal"]

def operand? (line : List Char) : Option String :=
  if (opening line).2 = some ' ' ∧ (opening line).1 ∈ references then
    some (String.ofList (line.reverse.takeWhile isLabelPart).reverse)
  else none

theorem opening_append {word : String} (h : isLabel word) {c : Char} (hc : isLabelPart c = false)
    (rest : List Char) : opening (word.toList ++ c :: rest) = (word, some c) := by
  have hall := List.all_eq_true.1 h
  have hstop : ¬ isLabelPart c := Bool.eq_false_iff.1 hc
  rw [opening, List.takeWhile_append_of_pos hall, List.dropWhile_append_of_pos hall,
    List.takeWhile_cons_of_neg hstop, List.dropWhile_cons_of_neg hstop, List.append_nil,
    String.ofList_toList]
  rfl

theorem last_word {l : String} (h : isLabel l) (front : List Char) :
    String.ofList ((front ++ ' ' :: l.toList).reverse.takeWhile isLabelPart).reverse = l := by
  have hall : ∀ c ∈ l.toList.reverse, isLabelPart c :=
    fun c hc => List.all_eq_true.1 h c (List.mem_reverse.1 hc)
  rw [List.reverse_append, List.reverse_cons, List.append_assoc,
    List.takeWhile_append_of_pos hall, List.singleton_append,
    List.takeWhile_cons_of_neg (by decide), List.append_nil, List.reverse_reverse,
    String.ofList_toList]

end PrintedLine

/-- Lines of a text, with the labels that they define and those that they refer to. -/
structure Reads (lines labels operands : List String) : Prop where
  inline : ∀ line ∈ lines, Inline line
  labels : (lines.map String.toList).filterMap PrintedLine.label? = labels
  operands : (lines.map String.toList).filterMap PrintedLine.operand? = operands

namespace Reads

instance (lines labels operands : List String) : Decidable (Reads lines labels operands) :=
  decidable_of_iff ((∀ line ∈ lines, Inline line) ∧
      (lines.map String.toList).filterMap PrintedLine.label? = labels ∧
      (lines.map String.toList).filterMap PrintedLine.operand? = operands)
    ⟨fun h => ⟨h.1, h.2.1, h.2.2⟩, fun h => ⟨h.inline, h.labels, h.operands⟩⟩

theorem append {lines lines' labels labels' operands operands' : List String}
    (h : Reads lines labels operands) (h' : Reads lines' labels' operands') :
    Reads (lines ++ lines') (labels ++ labels') (operands ++ operands') := by
  refine ⟨List.forall_mem_append.2 ⟨h.inline, h'.inline⟩, ?_, ?_⟩
  · rw [List.map_append, List.filterMap_append, h.labels, h'.labels]
  · rw [List.map_append, List.filterMap_append, h.operands, h'.operands]

theorem of_forall {α : Type} {xs : List α} {text : α → String} {label operand : α → Option String}
    (h : ∀ x ∈ xs, Inline (text x) ∧ PrintedLine.label? (text x).toList = label x ∧
      PrintedLine.operand? (text x).toList = operand x) :
    Reads (xs.map text) (xs.filterMap label) (xs.filterMap operand) := by
  refine ⟨List.forall_mem_map.2 fun x hx => (h x hx).1, ?_, ?_⟩
  · rw [List.map_map, List.filterMap_map]
    exact List.filterMap_congr fun x hx => (h x hx).2.1
  · rw [List.map_map, List.filterMap_map]
    exact List.filterMap_congr fun x hx => (h x hx).2.2

end Reads

theorem Library.strings_read :
    Reads (strings.map LibraryString.text) (strings.map LibraryString.label) [] := by
  decide +kernel

theorem Library.routines_read : Reads (routines.map RoutineLine.text)
    (routines.filterMap RoutineLine.label?) (routines.filterMap RoutineLine.operand?) := by
  decide +kernel

theorem DataLine.reads {line : DataLine} (hsome : line.label?.isSome)
    (hlabel : ∀ l, line.label? = some l → isLabel l) :
    Inline line.text ∧ PrintedLine.label? line.text.toList = line.label? ∧
      PrintedLine.operand? line.text.toList = none := by
  cases line with
  | verbatim => nomatch hsome
  | space label bytes =>
    have htext : (space label bytes).text.toList =
        label.toList ++ ':' :: (" .space ".toList ++ (toString bytes).toList) := by
      simp [DataLine.text]
    have hopening := PrintedLine.opening_append (hlabel label rfl) (c := ':') rfl
      (" .space ".toList ++ (toString bytes).toList)
    refine ⟨?_, ?_, ?_⟩
    · exact .append (.append (inline_of_isLabel (hlabel label rfl)) (by decide)) (inline_nat bytes)
    · rw [PrintedLine.label?, htext, hopening]
      rfl
    · rw [PrintedLine.operand?, htext, hopening]
      rfl

namespace Instr

theorem toList_withOperands (mnemonic : String) (operands : List String) :
    (withOperands mnemonic operands).toList =
      mnemonic.toList ++ ' ' :: (", ".intercalate operands).toList := by
  simp [withOperands]

def mnemonic : Instr → String
  | immediate op _ _ _ => op.mnemonic
  | loadWord _ _ _ => "lw"
  | storeWord _ _ _ => "sw"
  | loadSingle _ _ _ => "lwc1"
  | storeSingle _ _ _ => "swc1"
  | constant _ _ => "li"
  | singleConstant _ _ => "li.s"
  | loadAddress _ _ => "la"
  | word op _ _ _ => op.mnemonic
  | single op _ _ _ => op.mnemonic
  | testSingle op _ _ => op.mnemonic
  | branchFlag flag _ => if flag then "bc1t" else "bc1f"
  | branchEqual _ _ _ => "beq"
  | jump _ => "j"
  | jumpLink _ => "jal"
  | jumpRegister _ => "jr"
  | service _ => "li"
  | syscall => "syscall"

theorem isLabel_mnemonic (i : Instr) : isLabel i.mnemonic := by
  cases i with
  | branchFlag flag => cases flag <;> simp only [mnemonic] <;> decide +kernel
  | immediate op | word op | single op | testSingle op =>
    simp only [mnemonic]
    cases op <;> decide +kernel
  | _ =>
    simp only [mnemonic]
    decide +kernel

theorem mnemonic_mem_references (i : Instr) :
    decide (i.mnemonic ∈ PrintedLine.references) = (Line.instr i).operand?.isSome := by
  cases i with
  | branchFlag flag => cases flag <;> rfl
  | immediate op | word op | single op | testSingle op =>
    change decide (op.mnemonic ∈ PrintedLine.references) = false
    cases op <;> decide +kernel
  | _ => rfl

theorem opening_text (i : Instr) :
    PrintedLine.opening i.text.toList = (i.mnemonic, if i = .syscall then none else some ' ') := by
  have hspace (rest : List Char) := PrintedLine.opening_append i.isLabel_mnemonic (c := ' ') rfl rest
  cases i with
  | syscall => rfl
  | service number =>
    have htext : (service number).text.toList =
        "li".toList ++ ' ' :: ("   $v0, ".toList ++ (toString number).toList) := by
      simp [text]
    rw [htext]
    exact hspace _
  | _ =>
    rw [text, toList_withOperands]
    exact hspace _

theorem text_of_operand {i : Instr} {l : String} (h : (Line.instr i).operand? = some l) :
    ∃ front, i.text.toList = front ++ ' ' :: l.toList := by
  cases i with
  | loadAddress target label =>
    obtain rfl : label = l := Option.some.inj h
    exact ⟨("la " ++ target.name ++ ",").toList, by simp [text, withOperands]⟩
  | branchFlag flag label =>
    obtain rfl : label = l := Option.some.inj h
    exact ⟨_, toList_withOperands _ [label]⟩
  | branchEqual left right label =>
    obtain rfl : label = l := Option.some.inj h
    exact ⟨("beq " ++ left.name ++ ", " ++ right.name ++ ",").toList, by simp [text, withOperands]⟩
  | jump label | jumpLink label =>
    obtain rfl : label = l := Option.some.inj h
    exact ⟨_, toList_withOperands _ [label]⟩
  | _ => nomatch h

theorem inline_withOperands {mnemonic : String} {operands : List String}
    (hmnemonic : Inline mnemonic) (h : ∀ operand ∈ operands, Inline operand) :
    Inline (withOperands mnemonic operands) := by
  refine .append (.append hmnemonic (by decide)) ?_
  induction operands with
  | nil => decide
  | cons first rest ih =>
    obtain ⟨hfirst, hrest⟩ := List.forall_mem_cons.1 h
    cases rest with
    | nil => rwa [String.intercalate_singleton]
    | cons second rest =>
      rw [String.intercalate_cons_cons]
      exact .append (.append hfirst (by decide)) (ih hrest)

end Instr

namespace Single

theorem inline_positional {digits : List Char} (h : '\n' ∉ digits) (grid : Int) :
    '\n' ∉ positional digits grid := by
  unfold positional
  split
  · simp [h]
  · dsimp only
    split
    · simp only [List.mem_append, List.mem_cons, not_or]
      exact ⟨fun hmem => h (List.mem_of_mem_take hmem), by decide,
        fun hmem => h (List.mem_of_mem_drop hmem)⟩
    · simp [h]

theorem inline_scientific {digits : List Char} (h : '\n' ∉ digits) (exponent : Int) :
    '\n' ∉ scientific digits exponent := by
  have hexponent : '\n' ∉ (toString exponent).toList := inline_int exponent
  unfold scientific
  dsimp only
  split
  · simp_all
  · simp_all

theorem inline_text (x : Single) : Inline x.text := by
  have hdigits : '\n' ∉ Nat.toDigits 10 x.rounding.shortest.1 := by
    rw [← Nat.toList_repr]
    exact inline_nat _
  have hmagnitude : '\n' ∉ x.magnitudeText := by
    unfold magnitudeText
    split
    · decide
    · dsimp only
      split
      · exact inline_positional hdigits _
      · exact inline_scientific hdigits _
  rw [Inline, text, String.toList_ofList]
  split
  · simp [hmagnitude]
  · exact hmagnitude

end Single

namespace Instr

theorem inline_text {i : Instr} (hregs : i.isGenerated)
    (hlabel : ∀ l, (Line.instr i).operand? = some l → isLabel l) : Inline i.text := by
  have hnames : ∀ r ∈ Reg.generated, Inline r.name := by decide
  have hname : ∀ r ∈ i.registers, Inline r.name :=
    fun r hr => hnames r (of_decide_eq_true (List.all_eq_true.1 hregs r hr))
  have hplace {r : Reg} (hr : r ∈ i.registers) (offset : Int) : Inline (place offset r) :=
    .append (.append (.append (inline_int offset) (by decide)) (hname r hr)) (by decide)
  have hoperand (l : String) (h : (Line.instr i).operand? = some l) : Inline l :=
    inline_of_isLabel (hlabel l h)
  have hmnemonic := inline_of_isLabel i.isLabel_mnemonic
  cases i with
  | syscall => decide
  | service number => exact .append (by decide) (inline_nat number)
  | loadAddress | branchFlag | branchEqual | jump | jumpLink =>
    refine inline_withOperands hmnemonic ?_
    simp_all [registers, Line.operand?, Line.target?, Line.called?, Line.loaded?]
  | immediate | loadWord | storeWord | loadSingle | storeSingle | constant | singleConstant | word
  | single | testSingle | jumpRegister =>
    refine inline_withOperands hmnemonic ?_
    simp_all [registers, inline_int, Single.inline_text]

end Instr

theorem Line.reads {line : Line} (hgenerated : line.isGenerated)
    (hlabel : ∀ l, line.label? = some l → isLabel l)
    (hoperand : ∀ l, line.operand? = some l → isLabel l) :
    Inline line.text ∧ PrintedLine.label? line.text.toList = line.label? ∧
      PrintedLine.operand? line.text.toList = line.operand? := by
  cases line with
  | verbatim => nomatch hgenerated
  | label name =>
    have hopening : PrintedLine.opening (name ++ ":").toList = (name, some ':') := by
      rw [String.toList_append]
      exact PrintedLine.opening_append (hlabel name rfl) rfl []
    refine ⟨.append (inline_of_isLabel (hlabel name rfl)) (by decide), ?_, ?_⟩
    · rw [PrintedLine.label?, text, hopening]
      rfl
    · rw [PrintedLine.operand?, text, hopening]
      rfl
  | instr i =>
    refine ⟨Instr.inline_text hgenerated hoperand, ?_, ?_⟩
    · rw [PrintedLine.label?, text, i.opening_text]
      split <;> rfl
    · rw [PrintedLine.operand?, text, i.opening_text]
      have hreferences := i.mnemonic_mem_references
      cases hl : (Line.instr i).operand? with
      | none =>
        rw [hl] at hreferences
        exact if_neg fun h => absurd h.2 (of_decide_eq_false hreferences)
      | some l =>
        rw [hl] at hreferences
        have hcall : i ≠ .syscall := by
          rintro rfl
          nomatch hl
        obtain ⟨front, hfront⟩ := Instr.text_of_operand hl
        rw [if_pos ⟨if_neg hcall, of_decide_eq_true hreferences⟩, hfront,
          PrintedLine.last_word (hoperand l hl)]

namespace Program

theorem reads {program : Program} (hcode : program.code.all Line.isGenerated)
    (hdata : ∀ line ∈ program.data, line.label?.isSome)
    (hlabels : ∀ l ∈ program.definedLabels, isLabel l)
    (hoperands : ∀ l ∈ program.labelOperands, isLabel l) :
    Reads program.lines program.definedLabels program.labelOperands := by
  have hdataReads : Reads (program.data.map DataLine.text)
      (program.data.filterMap DataLine.label?) (program.data.filterMap fun _ => none) := by
    refine .of_forall fun line hline => DataLine.reads (hdata line hline) fun l hl => hlabels l ?_
    exact List.mem_append_left _ (List.mem_append_left _ (List.mem_filterMap.2 ⟨line, hline, hl⟩))
  have hcodeReads : Reads (program.code.map Line.text) program.code.labels
      (program.code.filterMap Line.operand?) := by
    refine .of_forall fun line hline => Line.reads (List.all_eq_true.1 hcode line hline)
      (fun l hl => hlabels l ?_) fun l hl => hoperands l ?_
    · exact List.mem_append_right _ (List.mem_filterMap.2 ⟨line, hline, hl⟩)
    · exact List.mem_append_right _ (List.mem_filterMap.2 ⟨line, hline, hl⟩)
  have hopening : Reads [".data                         # BEGIN Data Segment"] [] [] := by
    decide +kernel
  have hmiddle : Reads ["                              # END Data Segment",
      ".text                         # BEGIN Code Segment"] [] [] := by
    decide +kernel
  have hprogram : Reads [".text                         # BEGIN Crux Program"] [] [] := by
    decide +kernel
  have hclosing : Reads ["                              # END Code Segment"] [] [] := by
    decide +kernel
  have hlines := ((((((hopening.append hdataReads).append Library.strings_read).append
    hmiddle).append Library.routines_read).append hprogram).append hcodeReads).append hclosing
  simpa [lines, definedLabels, labelOperands, Library.labels] using hlines

theorem text_lines {program : Program} (h : ∀ line ∈ program.lines, Inline line) :
    program.text.toList.splitOn '\n' = program.lines.map String.toList ++ [[]] := by
  rw [text, String.toList_join]
  generalize program.lines = lines at h
  induction lines with
  | nil => rfl
  | cons line lines ih =>
    obtain ⟨hline, hlines⟩ := List.forall_mem_cons.1 h
    have hfirst : (line ++ "\n").toList = line.toList ++ ['\n'] := by simp
    rw [List.map_cons, List.flatMap_cons, hfirst, List.append_assoc, List.singleton_append,
      List.splitOn_append_cons_self, List.splitOn_eq_singleton hline, ih hlines]
    rfl

end Program

/-- A compiled text can be read back: its lines are those of the program, and show the labels that
they define and those that they refer to. -/
theorem compiled_text_lines {source : String} {options : Options} {text : String} {count : Nat}
    (h : compileText source options = .ok ⟨some text, count⟩) :
    ∃ program, (Environment.ofText source options.entry).lower (Tree.ofText source) = .ok program ∧
      text.toList.splitOn '\n' = program.lines.map String.toList ++ [[]] ∧
      (text.toList.splitOn '\n').filterMap PrintedLine.label? = program.definedLabels ∧
      (text.toList.splitOn '\n').filterMap PrintedLine.operand? = program.labelOperands := by
  obtain ⟨node, decls, program, htree, haccepted, hlower, rfl, _⟩ := compileText_ok h
  obtain ⟨hcode, hdata⟩ := generated_of_lower hlower
  have hlabels := haccepted.isLabel_of_defined hlower
  have hreads := Program.reads hcode hdata hlabels
    fun l hl => hlabels l (haccepted.operands_defined hlower l hl)
  have hlines := Program.text_lines hreads.inline
  refine ⟨program, htree ▸ hlower, hlines, ?_, ?_⟩
  · rw [hlines, List.filterMap_append, hreads.labels]
    exact List.append_nil _
  · rw [hlines, List.filterMap_append, hreads.operands]
    exact List.append_nil _

/-- In the characters of a compiled text, no label is defined twice, and every label that an
instruction refers to is defined. -/
theorem compiled_text_labels {source : String} {options : Options} {text : String} {count : Nat}
    (h : compileText source options = .ok ⟨some text, count⟩) :
    ((text.toList.splitOn '\n').filterMap PrintedLine.label?).Nodup ∧
      ∀ l ∈ (text.toList.splitOn '\n').filterMap PrintedLine.operand?,
        l ∈ (text.toList.splitOn '\n').filterMap PrintedLine.label? := by
  obtain ⟨program, hprogram, _, hlabels, hoperands⟩ := compiled_text_lines h
  obtain ⟨node, decls, other, htree, haccepted, hlower, _⟩ := compileText_ok h
  obtain rfl : other = program := Except.ok.inj (hlower.symm.trans (htree ▸ hprogram))
  rw [hlabels, hoperands]
  exact ⟨haccepted.definedLabels_nodup hlower, haccepted.operands_defined hlower⟩

end MipsCompiler
