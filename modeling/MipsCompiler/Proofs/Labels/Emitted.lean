import MipsCompiler.Proofs.Labels.Names
import MipsCompiler.Proofs.Lowering.Emission

set_option autoImplicit false

/-!
# Labels of emitted code

What the code of a function does with labels. Each label that was issued on the way is defined once,
jumps stay inside of the function, calls go to the labels of their callees in order, and addresses
are those of globals.
-/

namespace MipsCompiler

theorem LowerState.issued_request (s : LowerState) (name : String) :
    (s.request name).labels.issued = s.label name :: s.labels.issued :=
  rfl

/-- From `s` to `t`, labels are requested for places inside the function and for nothing else. -/
def Body.Inner (body : Body) (s t : LowerState) : Prop :=
  ∃ names, t.labels.requested = names ++ s.labels.requested ∧
    ∀ name ∈ names, ∃ suffix ∈ innerNames, name = body.innerName suffix

namespace Body.Inner

variable {body : Body} {s t u : LowerState}

theorem of_eq (h : t.labels = s.labels) : body.Inner s t :=
  ⟨[], congrArg LabelSupply.requested h, fun _ hname => absurd hname List.not_mem_nil⟩

theorem request (s : LowerState) {suffix : String} (h : suffix ∈ innerNames) :
    body.Inner s (s.request (body.innerName suffix)) :=
  ⟨[body.innerName suffix], rfl, List.forall_mem_singleton.2 ⟨suffix, h, rfl⟩⟩

theorem trans (h : body.Inner s t) (h' : body.Inner t u) : body.Inner s u := by
  obtain ⟨names, hnames, hinner⟩ := h
  obtain ⟨names', hnames', hinner'⟩ := h'
  refine ⟨names' ++ names, ?_, List.forall_mem_append.2 ⟨hinner', hinner⟩⟩
  rw [hnames', hnames, List.append_assoc]

end Body.Inner

/-- The labels in code that was emitted from `s` to `t`. -/
structure Labelled (body : Body) (s : LowerState) (code : Code) (callees : List SymbolId)
    (t : LowerState) : Prop where
  counts : ∀ l, code.labels.count l + s.labels.issued.count l = t.labels.issued.count l
  requests : body.Inner s t
  targets : ∀ line ∈ code, ∀ l, line.target? = some l → l ∈ code.labels ∨ l = body.finish
  calls : code.filterMap Line.called? =
    callees.map fun id => (body.env.symbols.get id).callLabel body.env.entry
  loads : ∀ line ∈ code, ∀ l, line.loaded? = some l →
    ∃ id, body.storage.locate? id = some (.static l)
  generated : code.all Line.isGenerated

namespace Labelled

variable {body : Body} {s t u : LowerState} {a b : Code} {cs ds : List SymbolId}

theorem of_silent {depth : Nat} (h : ∀ line ∈ a, line.Silent) :
    Labelled body s a [] { s with depth := depth } := by
  have hoperands (line : Line) (hline : line ∈ a) :
      line.target? = none ∧ line.called? = none ∧ line.loaded? = none := by
    obtain ⟨_, _, hoperand, _⟩ := h line hline
    exact Line.operand?_eq_none.1 hoperand
  refine ⟨?_, .of_eq rfl, ?_, ?_, ?_, ?_⟩
  · intro l
    rw [Code.labels_of_silent h, List.count_nil, Nat.zero_add]
  · intro line hline l htarget
    nomatch (hoperands line hline).1.symm.trans htarget
  · exact List.filterMap_eq_nil_iff.2 fun line hline => (hoperands line hline).2.1
  · intro line hline l hload
    nomatch (hoperands line hline).2.2.symm.trans hload
  · refine List.all_eq_true.2 fun line hline => ?_
    obtain ⟨instruction, rfl, _, hgenerated⟩ := h line hline
    exact hgenerated

theorem append (ha : Labelled body s a cs t) (hb : Labelled body t b ds u) :
    Labelled body s (a ++ b) (cs ++ ds) u := by
  refine ⟨?_, ?_, ?_, ?_, ?_, ?_⟩
  · intro l
    have hcounta := ha.counts l
    have hcountb := hb.counts l
    rw [Code.labels_append, List.count_append]
    omega
  · exact ha.requests.trans hb.requests
  · refine List.forall_mem_append.2 ⟨fun line hline l hl => ?_, fun line hline l hl => ?_⟩
    · exact (ha.targets line hline l hl).imp_left fun h => by
        rw [Code.labels_append]; exact List.mem_append_left _ h
    · exact (hb.targets line hline l hl).imp_left fun h => by
        rw [Code.labels_append]; exact List.mem_append_right _ h
  · rw [List.filterMap_append, List.map_append, ha.calls, hb.calls]
  · exact List.forall_mem_append.2 ⟨ha.loads, hb.loads⟩
  · rw [List.all_append, ha.generated, hb.generated]
    rfl

/-- The labels of a branch are issued before its parts are lowered, and defined between them. -/
theorem branch {v w : LowerState} {otherwise finish : String} {test taken other : Code}
    {asked first second : List SymbolId} (hotherwise : otherwise = s.label (body.innerName "else"))
    (hfinish : finish = (s.request (body.innerName "else")).label (body.innerName "ifelse.end"))
    (htest : Labelled body ((s.request (body.innerName "else")).request
      (body.innerName "ifelse.end")) test asked v)
    (hthen : Labelled body v taken first w) (helse : Labelled body w other second t) :
    Labelled body s (test ++ [.instr (.branchEqual .t0 .zero otherwise)] ++ taken ++
      [.instr (.jump finish), .label otherwise] ++ other ++ [.label finish])
      (asked ++ first ++ second) t := by
  refine ⟨?_, ?_, ?_, ?_, ?_, ?_⟩
  · intro l
    have hctest := htest.counts l
    have hcthen := hthen.counts l
    have hcelse := helse.counts l
    simp only [LowerState.issued_request, ← hotherwise, ← hfinish, List.count_cons] at hctest
    simp only [Code.labels_append, Code.labels_instr, Code.labels_label, Code.labels_nil,
      List.count_append, List.count_cons, List.count_nil]
    omega
  · have hrequest : body.Inner s (s.request (body.innerName "else")) := .request s (by decide)
    have hend : body.Inner _ ((s.request (body.innerName "else")).request
      (body.innerName "ifelse.end")) := .request _ (by decide)
    exact hrequest.trans (hend.trans (htest.requests.trans (hthen.requests.trans helse.requests)))
  · simp only [List.forall_mem_append]
    refine ⟨⟨⟨⟨⟨?_, by simp [Line.target?]⟩, ?_⟩, by simp [Line.target?]⟩, ?_⟩, by simp [Line.target?]⟩
    · exact fun line hline l hl => (htest.targets line hline l hl).imp_left (by simp +contextual)
    · exact fun line hline l hl => (hthen.targets line hline l hl).imp_left (by simp +contextual)
    · exact fun line hline l hl => (helse.targets line hline l hl).imp_left (by simp +contextual)
  · simp only [List.filterMap_append, htest.calls, hthen.calls, helse.calls]
    change _ ++ [] ++ _ ++ [] ++ _ ++ [] = (asked ++ first ++ second).map _
    simp
  · simp only [List.forall_mem_append]
    exact ⟨⟨⟨⟨⟨htest.loads, by simp [Line.loaded?]⟩, hthen.loads⟩, by simp [Line.loaded?]⟩,
      helse.loads⟩, by simp [Line.loaded?]⟩
  · simp only [List.all_append, htest.generated, hthen.generated, helse.generated]
    rfl

theorem loop {v : LowerState} {head finish : String} {test repeated : Code}
    {asked inner : List SymbolId} (hhead : head = s.label (body.innerName "while"))
    (hfinish : finish = (s.request (body.innerName "while")).label (body.innerName "while.end"))
    (htest : Labelled body ((s.request (body.innerName "while")).request
      (body.innerName "while.end")) test asked v)
    (hinner : Labelled body v repeated inner t) :
    Labelled body s ([.label head] ++ (test ++ [.instr (.branchEqual .t0 .zero finish)]) ++
      repeated ++ [.instr (.jump head), .label finish]) (asked ++ inner) t := by
  refine ⟨?_, ?_, ?_, ?_, ?_, ?_⟩
  · intro l
    have hctest := htest.counts l
    have hcinner := hinner.counts l
    simp only [LowerState.issued_request, ← hhead, ← hfinish, List.count_cons] at hctest
    simp only [Code.labels_append, Code.labels_instr, Code.labels_label, Code.labels_nil,
      List.count_append, List.count_cons, List.count_nil]
    omega
  · have hrequest : body.Inner s (s.request (body.innerName "while")) := .request s (by decide)
    have hend : body.Inner _ ((s.request (body.innerName "while")).request
      (body.innerName "while.end")) := .request _ (by decide)
    exact hrequest.trans (hend.trans (htest.requests.trans hinner.requests))
  · simp only [List.forall_mem_append]
    refine ⟨⟨⟨by simp [Line.target?], ⟨?_, by simp [Line.target?]⟩⟩, ?_⟩, by simp [Line.target?]⟩
    · exact fun line hline l hl => (htest.targets line hline l hl).imp_left (by simp +contextual)
    · exact fun line hline l hl => (hinner.targets line hline l hl).imp_left (by simp +contextual)
  · simp only [List.filterMap_append, htest.calls, hinner.calls]
    change [] ++ (_ ++ []) ++ _ ++ [] = (asked ++ inner).map _
    simp
  · simp only [List.forall_mem_append]
    exact ⟨⟨⟨by simp [Line.loaded?], htest.loads, by simp [Line.loaded?]⟩, hinner.loads⟩,
      by simp [Line.loaded?]⟩
  · simp only [List.all_append, htest.generated, hinner.generated]
    rfl

end Labelled

section

variable {body : Body} {allowed : Nat → Prop} {s t : LowerState} {code : Code}
  {callees : List SymbolId}

theorem Straight.labelled (h : Straight body allowed s code callees t) :
    Labelled body s code callees t := by
  induction h with
  | nil => exact .of_silent fun _ hline => absurd hline List.not_mem_nil
  | op _ hmoves => exact .of_silent (StackOp.silent_of_moves hmoves)
  | plain hplain hgenerated =>
    exact .of_silent (List.forall_mem_singleton.2 (Instr.silent_of_isPlain hplain hgenerated))
  | @address s id instruction haddress =>
    obtain ⟨location, hlocation, rfl⟩ := Option.map_eq_some_iff.1 haddress
    cases location with
    | frame => exact .of_silent (List.forall_mem_singleton.2 ⟨_, rfl, rfl, rfl⟩)
    | static label =>
      refine ⟨fun l => by simp, .of_eq rfl, ?_, rfl, ?_, rfl⟩
      · exact List.forall_mem_singleton.2 fun _ htarget => nomatch htarget
      · exact List.forall_mem_singleton.2 fun l hl => ⟨id, Option.some.inj hl ▸ hlocation⟩
  | call =>
    refine ⟨fun l => by simp, .of_eq rfl, ?_, rfl, ?_, rfl⟩
    · exact List.forall_mem_singleton.2 fun _ htarget => nomatch htarget
    · exact List.forall_mem_singleton.2 fun _ hload => nomatch hload
  | @choose s flag label hlabel =>
    subst hlabel
    refine ⟨?_, .request s (by decide), by simp [Line.target?], rfl, by simp [Line.loaded?], rfl⟩
    intro l
    simp only [LowerState.issued_request, Code.labels_instr, Code.labels_label, Code.labels_nil,
      List.count_cons, List.count_nil]
    omega
  | append _ _ ih ih' => exact ih.append ih'

theorem Stmt.labelled_of_isAct {stmt : Stmt} (hact : stmt.isAct)
    (h : stmt.lower body s = .ok code t) : Labelled body s code stmt.callees t := by
  cases stmt with
  | call node callee args =>
    exact (call_straight h (fun e _ => e.drops_true body) trivial).1.labelled
  | assign node target source =>
    exact (assign_straight h fun e _ => e.drops_true body).1.labelled
  | ret node value =>
    obtain ⟨inner, u, ty, rfl, hstraight, _, _, rfl⟩ := ret_straight h fun e _ => e.drops_true body
    have hjump : Labelled body u [.instr (.jump body.finish)] [] { u with depth := s.depth } :=
      ⟨fun l => by simp, .of_eq rfl, by simp [Line.target?], rfl, by simp [Line.loaded?], rfl⟩
    have happend := hstraight.labelled.append hjump
    rwa [List.append_nil] at happend
  | var | branch | loop => nomatch hact

theorem Emits.labelled {phrase : StmtPhrase} {marked : MarkedCode}
    (h : Emits body s phrase marked t) : Labelled body s marked.lines phrase.callees t := by
  induction h with
  | var | nil => exact .of_silent fun _ hline => absurd hline List.not_mem_nil
  | act hact hlower =>
    rw [MarkedCode.lines_ofPart]
    exact Stmt.labelled_of_isAct hact hlower
  | @branch s u v w t node condition thenBlock elseBlock otherwise finish test skip taken other
      hotherwise hfinish htest hskip _ _ _ ihthen ihelse =>
    obtain ⟨front, hfront, hstraight⟩ :=
      Body.test_straight htest hskip fun e _ => e.drops_true body
    simp only [MarkedCode.lines_append, MarkedCode.lines_ofPart, MarkedCode.lines_unmarked, hfront]
    exact .branch hotherwise hfinish hstraight.labelled ihthen ihelse
  | @loop s u v t node condition inner head finish test skip repeated hhead hfinish htest hskip
      _ _ ih =>
    obtain ⟨front, hfront, hstraight⟩ :=
      Body.test_straight htest hskip fun e _ => e.drops_true body
    simp only [MarkedCode.lines_append, MarkedCode.lines_ofPart, MarkedCode.lines_unmarked, hfront]
    exact .loop hhead hfinish hstraight.labelled ih
  | block _ ih => exact ih
  | cons _ _ ih ih' =>
    rw [MarkedCode.lines_append]
    exact ih.append ih'

end

end MipsCompiler
