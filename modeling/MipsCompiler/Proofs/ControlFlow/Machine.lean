import MipsCompiler.Proofs.Lowering.Emission

set_option autoImplicit false

/-!
# Two ways to run a body

A `Walk` goes through the statements of a body, and a `Machine` through the lines of a program. Both
are told how each condition turns out. A walk leaves the parts that it went through behind, and a
machine the events on the lines that it executed.

A part's code is marked on its first and on its last line. `Passes` is code that control runs through
from the one to the other, whatever comparisons of single precision numbers give.
-/

namespace MipsCompiler

open MarkedCode (unmarked startWith endWith ofPart)

/-- How the conditions of a run turn out, and its comparisons of single precision numbers, each in
the order in which they are made. -/
structure Outcomes where
  condition : Nat → Bool
  comparison : Nat → Bool

def Part.span (part : Part) : List Event :=
  [.starts part, .ends part]

/-- The statements that are still to be executed, the number of conditions that were evaluated, and
the parts so far. -/
structure Walk where
  pending : List Stmt
  asked : Nat
  trace : List Part

namespace Walk

def ofBlock (block : Block) : Walk :=
  ⟨block.stmts, 0, []⟩

/-- Executes the first statement. A loop stays behind its own body. -/
def next (outcomes : Outcomes) (w : Walk) : Walk :=
  match w.pending with
  | [] => w
  | .var _ :: rest => ⟨rest, w.asked, w.trace⟩
  | .call node callee args :: rest =>
    ⟨rest, w.asked, w.trace ++ [.act (.call node callee args)]⟩
  | .assign node target source :: rest =>
    ⟨rest, w.asked, w.trace ++ [.act (.assign node target source)]⟩
  | .branch _ condition thenBlock elseBlock :: rest =>
    ⟨(if outcomes.condition w.asked then thenBlock.stmts else elseBlock.stmts) ++ rest, w.asked + 1,
      w.trace ++ [.condition condition]⟩
  | .loop node condition inner :: rest =>
    ⟨if outcomes.condition w.asked then inner.stmts ++ .loop node condition inner :: rest else rest,
      w.asked + 1, w.trace ++ [.condition condition]⟩
  | .ret node value :: _ => ⟨[], w.asked, w.trace ++ [.act (.ret node value)]⟩

def run (outcomes : Outcomes) : Nat → Walk → Walk
  | 0, w => w
  | n + 1, w => run outcomes n (w.next outcomes)

def events (w : Walk) : List Event :=
  w.trace.flatMap Part.span

theorem run_add (outcomes : Outcomes) (a b : Nat) (w : Walk) :
    w.run outcomes (a + b) = (w.run outcomes a).run outcomes b := by
  induction a generalizing w with
  | zero => rw [Nat.zero_add, run]
  | succ a ih => rw [Nat.succ_add, run, ih, run]

/-- A walk ends or comes to another part, for declarations are used up. -/
theorem ends_or_grows (outcomes : Outcomes) (w : Walk) :
    ∃ n, (w.run outcomes n).pending = [] ∨ w.trace.length < (w.run outcomes n).trace.length := by
  obtain ⟨pending, asked, trace⟩ := w
  induction pending with
  | nil => exact ⟨0, .inl rfl⟩
  | cons stmt rest ih =>
    cases stmt with
    | var decl =>
      obtain ⟨n, hn⟩ := ih
      exact ⟨n + 1, hn⟩
    | call | assign | branch | loop | ret =>
      refine ⟨1, .inr ?_⟩
      simp [run, next]

theorem ends_or_reaches (outcomes : Outcomes) (w : Walk) (length : Nat) :
    ∃ n, (w.run outcomes n).pending = [] ∨ length ≤ (w.run outcomes n).trace.length := by
  induction length with
  | zero => exact ⟨0, .inr (Nat.zero_le _)⟩
  | succ length ih =>
    obtain ⟨a, hends | hlength⟩ := ih
    · exact ⟨a, .inl hends⟩
    · obtain ⟨b, hb⟩ := ends_or_grows outcomes (w.run outcomes a)
      rw [← run_add] at hb
      exact ⟨a + b, hb.imp_right fun hgrows => Nat.lt_of_le_of_lt hlength hgrows⟩

theorem length_events (w : Walk) : w.events.length = 2 * w.trace.length := by
  unfold events
  induction w.trace with
  | nil => rfl
  | cons part trace ih =>
    rw [List.flatMap_cons, List.length_append, ih, List.length_cons, Part.span]
    simp only [List.length_cons, List.length_nil]
    omega

end Walk

def MarkedCode.place (code : MarkedCode) (name : String) : Nat :=
  code.findIdx fun x => x.line = .label name

/-- The line to be executed, the numbers of conditions and of comparisons so far, and the events on
the lines that were executed. -/
structure Machine where
  line : Nat
  asked : Nat
  compared : Nat
  trace : List Event

namespace Machine

def start (line : Nat) : Machine :=
  ⟨line, 0, 0, []⟩

/-- Executes a line. The branch on a condition is taken if that is false. Calls come back to the next
line, and the run stops at the label `finish`. -/
def next (code : MarkedCode) (finish : String) (outcomes : Outcomes) (m : Machine) : Machine :=
  match code[m.line]? with
  | none => m
  | some x =>
    let trace := m.trace ++ x.events
    match x.line with
    | .label name => if name = finish then m else ⟨m.line + 1, m.asked, m.compared, trace⟩
    | .instr (.jump name) => ⟨code.place name, m.asked, m.compared, trace⟩
    | .instr (.branchEqual _ _ name) =>
      ⟨if outcomes.condition m.asked then m.line + 1 else code.place name, m.asked + 1, m.compared,
        trace⟩
    | .instr (.branchFlag _ name) =>
      ⟨if outcomes.comparison m.compared then code.place name else m.line + 1, m.asked,
        m.compared + 1, trace⟩
    | _ => ⟨m.line + 1, m.asked, m.compared, trace⟩

def run (code : MarkedCode) (finish : String) (outcomes : Outcomes) : Nat → Machine → Machine
  | 0, m => m
  | n + 1, m => run code finish outcomes n (m.next code finish outcomes)

def Stops (code : MarkedCode) (finish : String) (m : Machine) : Prop :=
  code.lines[m.line]? = some (.label finish)

section

variable {code : MarkedCode} {finish : String} {outcomes : Outcomes} {m : Machine}

theorem run_add (a b : Nat) (m : Machine) :
    run code finish outcomes (a + b) m =
      run code finish outcomes b (run code finish outcomes a m) := by
  induction a generalizing m with
  | zero => rw [Nat.zero_add, run]
  | succ a ih => rw [Nat.succ_add, run, ih, run]

theorem next_of_stops (h : m.Stops code finish) : m.next code finish outcomes = m := by
  unfold Stops at h
  rw [MarkedCode.lines, List.getElem?_map, Option.map_eq_some_iff] at h
  obtain ⟨x, hx, hlabel⟩ := h
  simp only [next, hx, hlabel, if_true]

theorem run_of_stops (h : m.Stops code finish) (n : Nat) : run code finish outcomes n m = m := by
  induction n with
  | zero => rfl
  | succ n ih => rw [run, next_of_stops h, ih]

theorem trace_next (m : Machine) : m.trace <+: (m.next code finish outcomes).trace := by
  unfold next
  split
  · exact List.prefix_rfl
  · split
    · split
      · exact List.prefix_rfl
      · exact List.prefix_append _ _
    all_goals exact List.prefix_append _ _

theorem trace_run (n : Nat) (m : Machine) : m.trace <+: (run code finish outcomes n m).trace := by
  induction n generalizing m with
  | zero => exact List.prefix_rfl
  | succ n ih => exact (trace_next m).trans (ih _)

theorem trace_mono {a b : Nat} (h : a ≤ b) (m : Machine) :
    (run code finish outcomes a m).trace <+: (run code finish outcomes b m).trace := by
  obtain ⟨k, rfl⟩ := Nat.exists_eq_add_of_le h
  rw [run_add]
  exact trace_run _ _

theorem trace_of_stops {a : Nat} (h : (run code finish outcomes a m).Stops code finish) (b : Nat) :
    (run code finish outcomes b m).trace <+: (run code finish outcomes a m).trace := by
  have hmono : (run code finish outcomes b m).trace <+: (run code finish outcomes (a + b) m).trace :=
    trace_mono (Nat.le_add_left b a) m
  rwa [run_add, run_of_stops h] at hmono

end

end Machine

/-- Two runs are the same: each leaves behind all that the other does, and they end together. -/
structure SameFlow (code : MarkedCode) (finish : String) (outcomes : Outcomes) (m : Machine)
    (w : Walk) : Prop where
  complete : ∀ k, ∃ n, (m.run code finish outcomes n).trace = (w.run outcomes k).events
  sound : ∀ n, ∃ k, (m.run code finish outcomes n).trace <+: (w.run outcomes k).events
  ends : (∃ n, (m.run code finish outcomes n).Stops code finish) ↔
    ∃ k, (w.run outcomes k).pending = []
  final : ∀ n k, (m.run code finish outcomes n).Stops code finish →
    (w.run outcomes k).pending = [] →
    (m.run code finish outcomes n).trace = (w.run outcomes k).events

structure Track where
  code : MarkedCode
  finish : String
  last : Nat
  labels_nodup : code.lines.labels.Nodup
  at_last : code.lines[last]? = some (.label finish)

theorem MarkedCode.lines_getElem? {code : MarkedCode} {i : Nat} {line : Line} {events : List Event}
    (h : code[i]? = some ⟨line, events⟩) : code.lines[i]? = some line := by
  rw [lines, List.getElem?_map, h, Option.map_some]

namespace Track

variable {x : Track} {outcomes : Outcomes} {m m' m'' : Machine} {i j asked compared : Nat}
  {line : Line} {trace events : List Event} {name : String}

theorem place_eq (h : x.code.lines[j]? = some (.label name)) : x.code.place name = j := by
  rw [MarkedCode.lines, List.getElem?_map, Option.map_eq_some_iff] at h
  obtain ⟨y, hy, hlabel⟩ := h
  have hlt : x.code.place name < x.code.length :=
    List.findIdx_lt_length_of_exists ⟨y, List.mem_of_getElem? hy, decide_eq_true hlabel⟩
  have hfound : (x.code[x.code.place name]).line = .label name :=
    of_decide_eq_true (List.findIdx_getElem (w := hlt))
  refine @Code.eq_of_label _ x.labels_nodup name _ _ ?_ ?_
  · rw [MarkedCode.lines, List.getElem?_map, List.getElem?_eq_getElem hlt, Option.map_some, hfound]
  · rw [MarkedCode.lines, List.getElem?_map, hy, Option.map_some, hlabel]

/-- The machine gets from one state to the other. -/
def Goes (x : Track) (outcomes : Outcomes) (m m' : Machine) : Prop :=
  ∃ n, Machine.run x.code x.finish outcomes n m = m'

theorem Goes.refl : x.Goes outcomes m m :=
  ⟨0, rfl⟩

theorem Goes.trans (h : x.Goes outcomes m m') (h' : x.Goes outcomes m' m'') :
    x.Goes outcomes m m'' := by
  obtain ⟨a, rfl⟩ := h
  obtain ⟨b, rfl⟩ := h'
  exact ⟨a + b, Machine.run_add a b m⟩

theorem Goes.one (h : m.next x.code x.finish outcomes = m') : x.Goes outcomes m m' :=
  ⟨1, h⟩

theorem goes_line (hline : x.code[i]? = some ⟨line, events⟩) (htarget : line.target? = none)
    (hlast : i < x.last) :
    x.Goes outcomes ⟨i, asked, compared, trace⟩ ⟨i + 1, asked, compared, trace ++ events⟩ := by
  refine .one ?_
  unfold Machine.next
  rw [hline]
  cases line with
  | label name =>
    refine if_neg fun heq => Nat.ne_of_lt hlast (Code.eq_of_label x.labels_nodup ?_ x.at_last)
    exact heq ▸ MarkedCode.lines_getElem? hline
  | verbatim => rfl
  | instr instruction =>
    cases instruction with
    | jump | branchEqual | branchFlag => nomatch htarget
    | _ => rfl

theorem goes_jump (hline : x.code[i]? = some ⟨.instr (.jump name), events⟩)
    (hlabel : x.code.lines[j]? = some (.label name)) :
    x.Goes outcomes ⟨i, asked, compared, trace⟩ ⟨j, asked, compared, trace ++ events⟩ := by
  refine .one ?_
  unfold Machine.next
  rw [hline, ← place_eq hlabel]

theorem goes_condition {left right : Reg}
    (hline : x.code[i]? = some ⟨.instr (.branchEqual left right name), events⟩)
    (hlabel : x.code.lines[j]? = some (.label name)) :
    x.Goes outcomes ⟨i, asked, compared, trace⟩
      ⟨if outcomes.condition asked then i + 1 else j, asked + 1, compared, trace ++ events⟩ := by
  refine .one ?_
  unfold Machine.next
  rw [hline, ← place_eq hlabel]

theorem goes_comparison {flag : Bool}
    (hline : x.code[i]? = some ⟨.instr (.branchFlag flag name), events⟩)
    (hlabel : x.code.lines[j]? = some (.label name)) :
    x.Goes outcomes ⟨i, asked, compared, trace⟩
      ⟨if outcomes.comparison compared then j else i + 1, asked, compared + 1, trace ++ events⟩ := by
  refine .one ?_
  unfold Machine.next
  rw [hline, ← place_eq hlabel]

end Track

namespace MarkedCode

variable {part : Part} {event : Event} {a b : MarkedCode} {code : Code}

def events (code : MarkedCode) : List Event :=
  code.flatMap MarkedLine.events

@[simp] theorem events_append (a b : MarkedCode) : events (a ++ b) = events a ++ events b :=
  List.flatMap_append

@[simp] theorem events_singleton (x : MarkedLine) : events [x] = x.events :=
  List.append_nil _

@[simp] theorem events_unmarked (code : Code) : events (unmarked code) = [] := by
  induction code with
  | nil => rfl
  | cons line code ih => exact ih

theorem events_startWith (h : a ≠ []) : events (startWith event a) = event :: events a := by
  cases a with
  | nil => exact absurd rfl h
  | cons x a => rfl

theorem endWith_append (h : b ≠ []) : endWith event (a ++ b) = a ++ endWith event b := by
  induction a with
  | nil => rfl
  | cons x a ih =>
    cases hrest : a ++ b with
    | nil => exact absurd (List.append_eq_nil_iff.1 hrest).2 h
    | cons y c =>
      rw [List.cons_append, List.cons_append, ← ih, hrest]
      rfl

theorem events_endWith (h : a ≠ []) : events (endWith event a) = events a ++ [event] := by
  obtain ⟨front, last, rfl⟩ : ∃ front last, a = front ++ [last] :=
    ⟨_, _, (List.dropLast_concat_getLast h).symm⟩
  rw [endWith_append (List.cons_ne_nil _ _), events_append, events_append, List.append_assoc]
  simp [endWith]

theorem endWith_ne_nil (h : a ≠ []) : endWith event a ≠ [] := by
  intro hempty
  have hlines := lines_endWith event a
  rw [hempty] at hlines
  exact h (List.map_eq_nil_iff.1 hlines.symm)

theorem startWith_append (h : a ≠ []) : startWith event (a ++ b) = startWith event a ++ b := by
  cases a with
  | nil => exact absurd rfl h
  | cons x a => rfl

end MarkedCode

/-- Code that control runs through, past the events on its lines. -/
inductive Passes : MarkedCode → Prop
  | nil : Passes []
  | line {line : Line} {events : List Event} : line.target? = none → Passes [⟨line, events⟩]
  | choose {flag : Bool} {name : String} {before after : List Event} :
      Passes [⟨.instr (.branchFlag flag name), before⟩, ⟨.instr (.constant .t0 0), []⟩,
        ⟨.label name, after⟩]
  | append {a b : MarkedCode} : Passes a → Passes b → Passes (a ++ b)

namespace Passes

variable {x : Track} {outcomes : Outcomes} {i asked compared : Nat} {trace : List Event}
  {piece : MarkedCode}

theorem goes (h : Passes piece) (hat : At x.code i piece) (hlast : i + piece.length ≤ x.last) :
    ∃ compared', x.Goes outcomes ⟨i, asked, compared, trace⟩
      ⟨i + piece.length, asked, compared', trace ++ piece.events⟩ := by
  induction h generalizing i compared trace with
  | nil => exact ⟨compared, 0, by simp [Machine.run, MarkedCode.events]⟩
  | @line line events htarget =>
    rw [MarkedCode.events_singleton]
    exact ⟨compared, Track.goes_line hat.get htarget hlast⟩
  | @choose flag name before after =>
    simp only [List.length_cons, List.length_nil] at hlast
    have hlabel := MarkedCode.lines_getElem? hat.tail.tail.get
    have hevents : MarkedCode.events [⟨.instr (.branchFlag flag name), before⟩,
        ⟨.instr (.constant .t0 0), []⟩, ⟨.label name, after⟩] = before ++ after := by
      simp [MarkedCode.events]
    rw [hevents, ← List.append_assoc]
    -- with the line in the middle or without it, control gets to the label
    refine ⟨compared + 1, (Track.goes_comparison hat.get hlabel).trans ?_⟩
    have hend : x.Goes outcomes ⟨i + 2, asked, compared + 1, trace ++ before⟩
        ⟨i + 3, asked, compared + 1, trace ++ before ++ after⟩ :=
      Track.goes_line hat.tail.tail.get rfl (by omega)
    cases outcomes.comparison compared with
    | true => exact hend
    | false =>
      have hmiddle : x.Goes outcomes ⟨i + 1, asked, compared + 1, trace ++ before⟩
          ⟨i + 2, asked, compared + 1, trace ++ before ++ []⟩ :=
        Track.goes_line hat.tail.get rfl (by omega)
      rw [List.append_nil] at hmiddle
      exact hmiddle.trans hend
  | append _ _ ih ih' =>
    rw [List.length_append] at hlast
    obtain ⟨compared₁, hfirst⟩ := ih hat.left (by omega)
    obtain ⟨compared₂, hsecond⟩ := ih' hat.right (by omega)
    rw [List.length_append, ← Nat.add_assoc, MarkedCode.events_append, ← List.append_assoc]
    exact ⟨compared₂, hfirst.trans hsecond⟩

theorem of_silent {code : Code} (h : ∀ line ∈ code, line.Silent) : Passes (unmarked code) := by
  induction code with
  | nil => exact .nil
  | cons line code ih =>
    obtain ⟨⟨_, _, hoperand, _⟩, hrest⟩ := List.forall_mem_cons.1 h
    exact .append (.line (Line.operand?_eq_none.1 hoperand).1) (ih hrest)

theorem startWith (h : Passes piece) (event : Event) : Passes (startWith event piece) := by
  induction h with
  | nil => exact .nil
  | line htarget => exact .line htarget
  | choose => exact .choose
  | @append a b ha hb iha ihb =>
    by_cases hempty : a = []
    · subst hempty
      exact ihb
    · rw [MarkedCode.startWith_append hempty]
      exact .append iha hb

theorem endWith (h : Passes piece) (event : Event) : Passes (endWith event piece) := by
  induction h with
  | nil => exact .nil
  | line htarget => exact .line htarget
  | choose => exact .choose
  | @append a b ha hb iha ihb =>
    by_cases hempty : b = []
    · subst hempty
      rwa [List.append_nil]
    · rw [MarkedCode.endWith_append hempty]
      exact .append ha ihb

end Passes

theorem Straight.passes {body : Body} {allowed : Nat → Prop} {s t : LowerState} {code : Code}
    {callees : List SymbolId} (h : Straight body allowed s code callees t) :
    Passes (unmarked code) := by
  induction h with
  | nil => exact .nil
  | op _ hmoves => exact .of_silent (StackOp.silent_of_moves hmoves)
  | plain hplain hgenerated =>
    exact .of_silent (List.forall_mem_singleton.2 (Instr.silent_of_isPlain hplain hgenerated))
  | @address s id instruction haddress =>
    obtain ⟨location, _, rfl⟩ := Option.map_eq_some_iff.1 haddress
    cases location with
    | frame | static => exact .line rfl
  | call => exact .line rfl
  | choose => exact .choose
  | append _ _ ih ih' =>
    rw [MarkedCode.unmarked_append]
    exact ih.append ih'

section

variable {part : Part} {code : Code}

theorem Passes.ofPart (h : Passes (unmarked code)) (hcode : code ≠ []) :
    Passes (ofPart part code) ∧ (ofPart part code).events = part.span := by
  have hmarked : unmarked code ≠ [] := fun hempty => hcode (List.map_eq_nil_iff.1 hempty)
  refine ⟨(h.endWith _).startWith _, ?_⟩
  rw [MarkedCode.ofPart, MarkedCode.events_startWith (MarkedCode.endWith_ne_nil hmarked),
    MarkedCode.events_endWith hmarked, MarkedCode.events_unmarked, List.nil_append, Part.span]

theorem Passes.ofPart_concat {last : Line} (h : Passes (unmarked code)) :
    ∃ front events, MarkedCode.ofPart part (code ++ [last]) = front ++ [⟨last, events⟩] ∧
      Passes front ∧ front.events ++ events = part.span := by
  have hlast : MarkedCode.ofPart part (code ++ [last]) =
      MarkedCode.startWith (.starts part) (unmarked code ++ [⟨last, [.ends part]⟩]) := by
    have hsingle : unmarked [last] ≠ [] := List.cons_ne_nil _ _
    rw [MarkedCode.ofPart, MarkedCode.unmarked_append, MarkedCode.endWith_append hsingle]
    rfl
  rw [hlast]
  by_cases hcode : unmarked code = []
  · rw [hcode]
    exact ⟨[], [.starts part, .ends part], rfl, .nil, rfl⟩
  · rw [MarkedCode.startWith_append hcode]
    refine ⟨_, [.ends part], rfl, h.startWith _, ?_⟩
    rw [MarkedCode.events_startWith hcode, MarkedCode.events_unmarked]
    rfl

end

end MipsCompiler
