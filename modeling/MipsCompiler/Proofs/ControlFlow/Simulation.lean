import MipsCompiler.Proofs.ControlFlow.Machine
import MipsCompiler.Proofs.Labels.Program

set_option autoImplicit false

/-!
# Control flow of emitted code

The lines of a function are executed in the order of its statements. `Leads` says which statements
are still to be executed when control is at a line. Each step of a walk is followed by some steps of
the machine, and both come to an end together: a walk that goes on for ever evaluates conditions for
ever, and so does the machine.
-/

namespace MipsCompiler

open MarkedCode (unmarked ofPart)

/-- Control at line `i` is about to execute `pending` and then to reach the end label. -/
inductive Leads (x : Track) (body : Body) : Nat → List Stmt → Prop
  | done : Leads x body x.last []
  | stmt {i : Nat} {s t : LowerState} {stmt : Stmt} {marked : MarkedCode} {rest : List Stmt} :
      Emits body s (.stmt stmt) marked t → At x.code i marked → i + marked.length ≤ x.last →
      Leads x body (i + marked.length) rest → Leads x body i (stmt :: rest)
  | label {i : Nat} {name : String} {pending : List Stmt} :
      x.code[i]? = some ⟨.label name, []⟩ → i < x.last → Leads x body (i + 1) pending →
      Leads x body i pending
  | jump {i j : Nat} {name : String} {pending : List Stmt} :
      x.code[i]? = some ⟨.instr (.jump name), []⟩ → x.code.lines[j]? = some (.label name) →
      Leads x body j pending → Leads x body i pending

section

variable {x : Track} {body : Body} {outcomes : Outcomes} {s t u : LowerState} {i : Nat}
  {marked : MarkedCode} {rest : List Stmt}

theorem Emits.leads_all {stmts : List Stmt} (h : Emits body s (.stmts stmts) marked t)
    (hat : At x.code i marked) (hlast : i + marked.length ≤ x.last)
    (hrest : Leads x body (i + marked.length) rest) : Leads x body i (stmts ++ rest) := by
  induction stmts generalizing s marked i with
  | nil =>
    cases h
    exact hrest
  | cons stmt stmts ih =>
    cases h with
    | cons hfirst hothers =>
      rw [List.length_append] at hlast
      rw [List.length_append, ← Nat.add_assoc] at hrest
      exact .stmt hfirst hat.left (by omega) (ih hothers hat.right (by omega) hrest)

theorem Emits.leads {block : Block} (h : Emits body s (.block block) marked t)
    (hat : At x.code i marked) (hlast : i + marked.length ≤ x.last)
    (hrest : Leads x body (i + marked.length) rest) : Leads x body i (block.stmts ++ rest) := by
  cases h with
  | block h => exact h.leads_all hat hlast hrest

theorem Body.jumpTo_ne_nil {callee : SymbolId} {words : Nat} {code : Code}
    (h : body.jumpTo callee words s = .ok code t) : code ≠ [] := by
  simp only [jumpTo, bind_ok, pure_ok] at h
  obtain ⟨release, _, _, push, _, _, rfl, _⟩ := h
  exact List.cons_ne_nil _ _

theorem Body.store_ne_nil {ty : Ty} {code : Code} (h : store ty s = .ok code t) : code ≠ [] := by
  unfold store at h
  split at h
  all_goals
    simp only [bind_ok, pure_ok] at h
    obtain ⟨value, _, _, place, _, _, rfl, _⟩ := h
    exact List.append_ne_nil_of_right_ne_nil _ (List.cons_ne_nil _ _)

theorem Stmt.passes_of_isAct {stmt : Stmt} {code : Code} (hact : stmt.isAct)
    (hreturns : stmt.returns = false) (h : stmt.lower body s = .ok code t) :
    Passes (ofPart (.act stmt) code) ∧ (ofPart (.act stmt) code).events = (Part.act stmt).span := by
  cases stmt with
  | call node callee args =>
    refine (call_straight h (fun e _ => e.drops_true body) trivial).1.passes.ofPart ?_
    obtain ⟨h, _⟩ := Lower.balanced_ok.1 h
    simp only [Body.callAsStatement, bind_ok, pure_ok, Prod.exists] at h
    obtain ⟨inner, _, _, _, jump, _, hjump, discard, _, _, rfl, _⟩ := h
    exact List.append_ne_nil_of_left_ne_nil
      (List.append_ne_nil_of_right_ne_nil _ (Body.jumpTo_ne_nil hjump)) _
  | assign node target source =>
    refine (assign_straight h fun e _ => e.drops_true body).1.passes.ofPart ?_
    obtain ⟨h, _⟩ := Lower.balanced_ok.1 h
    simp only [bind_ok, pure_ok, Environment.typeOf_ok, and_assoc, exists_and_left,
      exists_eq_left] at h
    obtain ⟨place, _, _, value, _, _, ty, _, store, _, hstore, rfl, _⟩ := h
    exact List.append_ne_nil_of_right_ne_nil _ (Body.store_ne_nil hstore)
  | ret => cases hreturns
  | var | branch | loop => cases hact

variable {asked compared : Nat} {trace : List Event}

theorem Track.goes_front {part : Part} {front : Code} {last : Line}
    (h : Passes (unmarked front)) (hat : At x.code i (ofPart part (front ++ [last])))
    (hlast : i + (ofPart part (front ++ [last])).length ≤ x.last) :
    ∃ j compared' first events, i + (ofPart part (front ++ [last])).length = j + 1 ∧
      x.code[j]? = some ⟨last, events⟩ ∧ first ++ events = part.span ∧
      x.Goes outcomes ⟨i, asked, compared, trace⟩ ⟨j, asked, compared', trace ++ first⟩ := by
  obtain ⟨piece, events, hsplit, hpasses, hevents⟩ := @Passes.ofPart_concat part _ last h
  rw [hsplit] at hat hlast ⊢
  rw [List.length_append, List.length_singleton] at hlast ⊢
  obtain ⟨compared', hgoes⟩ := @Passes.goes x outcomes i asked compared trace piece hpasses hat.left
    (by omega)
  exact ⟨i + piece.length, compared', piece.events, events, rfl, hat.right.get, hevents, hgoes⟩

theorem Track.goes_test {condition : Expr} {label : String} {test skip : Code} {j : Nat}
    (htest : condition.lower body s = .ok test u) (hskip : Body.skipTo label u = .ok skip t)
    (hat : At x.code i (ofPart (.condition condition) (test ++ skip)))
    (hlast : i + (ofPart (.condition condition) (test ++ skip)).length ≤ x.last)
    (hlabel : x.code.lines[j]? = some (.label label)) :
    ∃ compared', x.Goes outcomes ⟨i, asked, compared, trace⟩
      ⟨if outcomes.condition asked then i + (ofPart (.condition condition) (test ++ skip)).length
        else j, asked + 1, compared', trace ++ (Part.condition condition).span⟩ := by
  obtain ⟨front, hsplit, hstraight⟩ := Body.test_straight htest hskip fun e _ => e.drops_true body
  rw [hsplit] at hat hlast ⊢
  obtain ⟨k, compared', first, events, hk, hline, hevents, hgoes⟩ :=
    @goes_front x outcomes i asked compared trace _ front _ hstraight.passes hat hlast
  refine ⟨compared', hgoes.trans ?_⟩
  rw [hk, ← hevents, ← List.append_assoc]
  exact Track.goes_condition hline hlabel

/-- The machine is where the walk is. -/
structure Follows (x : Track) (body : Body) (w : Walk) (m : Machine) : Prop where
  leads : Leads x body m.line w.pending
  asked : m.asked = w.asked
  trace : m.trace = w.events

theorem Follows.concat {i compared : Nat} {pending : List Stmt} {trace : List Part} {part : Part}
    (h : Leads x body i pending) :
    Follows x body ⟨pending, asked, trace ++ [part]⟩
      ⟨i, asked, compared, trace.flatMap Part.span ++ part.span⟩ := by
  refine ⟨h, rfl, ?_⟩
  rw [Walk.events, List.flatMap_append, List.flatMap_singleton]

theorem Stmt.follows_of_isAct {stmt : Stmt} {code : Code} (hact : stmt.isAct)
    (h : stmt.lower body s = .ok code t) (hfinish : x.finish = body.finish)
    (hat : At x.code i (ofPart (.act stmt) code))
    (hlast : i + (ofPart (.act stmt) code).length ≤ x.last)
    (hrest : Leads x body (i + (ofPart (.act stmt) code).length) rest) (trace : List Part) :
    ∃ m, x.Goes outcomes ⟨i, asked, compared, trace.flatMap Part.span⟩ m ∧
      Follows x body (Walk.next outcomes ⟨stmt :: rest, asked, trace⟩) m := by
  cases stmt with
  | call node callee args | assign node target source =>
    obtain ⟨hpasses, hevents⟩ := passes_of_isAct hact rfl h
    obtain ⟨compared', hgoes⟩ := hpasses.goes hat hlast
    exact ⟨_, hevents ▸ hgoes, .concat hrest⟩
  | ret node value =>
    obtain ⟨inner, _, _, rfl, hstraight, _⟩ := ret_straight h fun e _ => e.drops_true body
    obtain ⟨j, compared', first, events, _, hline, hevents, hgoes⟩ :=
      Track.goes_front hstraight.passes hat hlast
    refine ⟨_, hgoes.trans (Track.goes_jump hline (hfinish ▸ x.at_last)), ?_⟩
    rw [List.append_assoc, hevents]
    exact .concat .done
  | var | branch | loop => nomatch hact

theorem Emits.follows {stmt : Stmt} (h : Emits body s (.stmt stmt) marked t)
    (hfinish : x.finish = body.finish) (hat : At x.code i marked)
    (hlast : i + marked.length ≤ x.last) (hrest : Leads x body (i + marked.length) rest)
    (trace : List Part) :
    ∃ m, x.Goes outcomes ⟨i, asked, compared, trace.flatMap Part.span⟩ m ∧
      Follows x body (Walk.next outcomes ⟨stmt :: rest, asked, trace⟩) m := by
  have hself : Leads x body i (stmt :: rest) := .stmt h hat hlast hrest
  cases h with
  | var => exact ⟨_, .refl, hrest, rfl, rfl⟩
  | act hact hlower => exact Stmt.follows_of_isAct hact hlower hfinish hat hlast hrest trace
  | @branch _ u v w _ node condition thenBlock elseBlock otherwise finish test skip taken other _ _
      htest hskip hthen helse _ =>
    simp only [MarkedCode.unmarked, List.map_cons, List.map_nil] at hat hlast hrest
    obtain ⟨hattest, hatthen, hjump, hotherwise, hatelse, hend, hlength⟩ := hat.of_branch
    rw [hlength] at hlast hrest
    have hlend := Leads.label hend (by omega) hrest
    have hlthen := hthen.leads hatthen (by omega) <|
      .jump hjump (MarkedCode.lines_getElem? hend) hlend
    have hlelse := Leads.label hotherwise (by omega) (helse.leads hatelse (by omega) hlend)
    obtain ⟨compared', hgoes⟩ := Track.goes_test htest hskip hattest (by omega)
      (MarkedCode.lines_getElem? hotherwise)
    refine ⟨_, hgoes, ?_⟩
    simp only [Walk.next]
    cases outcomes.condition asked with
    | true => exact .concat hlthen
    | false => exact .concat hlelse
  | @loop _ u v _ node condition inner head finish test skip repeated _ _ htest hskip hinner _ =>
    simp only [MarkedCode.unmarked, List.map_cons, List.map_nil] at hat hlast hrest
    obtain ⟨hhead, hattest, hatinner, hjump, hend, hlength⟩ := hat.of_loop
    rw [hlength] at hlast hrest
    have hlend := Leads.label hend (by omega) hrest
    -- behind the body control goes back to the head, where the loop is still to be executed
    have hlinner := hinner.leads hatinner (by omega) <|
      .jump hjump (MarkedCode.lines_getElem? hhead) hself
    have hfirst : x.Goes outcomes ⟨i, asked, compared, trace.flatMap Part.span⟩
        ⟨i + 1, asked, compared, trace.flatMap Part.span ++ []⟩ :=
      Track.goes_line hhead rfl (by omega)
    rw [List.append_nil] at hfirst
    obtain ⟨compared', hgoes⟩ := Track.goes_test htest hskip hattest (by omega)
      (MarkedCode.lines_getElem? hend)
    refine ⟨_, hfirst.trans hgoes, ?_⟩
    simp only [Walk.next]
    cases outcomes.condition asked with
    | true => exact .concat hlinner
    | false => exact .concat hlend

/-- Labels and jumps on the way to the next statement are passed without a trace. -/
theorem Leads.arrives {pending : List Stmt} (h : Leads x body i pending) :
    ∃ j, x.Goes outcomes ⟨i, asked, compared, trace⟩ ⟨j, asked, compared, trace⟩ ∧
      (pending = [] ∧ j = x.last ∨ ∃ s t stmt marked rest, pending = stmt :: rest ∧
        Emits body s (.stmt stmt) marked t ∧ At x.code j marked ∧ j + marked.length ≤ x.last ∧
        Leads x body (j + marked.length) rest) := by
  induction h with
  | done => exact ⟨x.last, .refl, .inl ⟨rfl, rfl⟩⟩
  | @stmt i s t stmt marked rest hemits hat hlast hrest _ =>
    exact ⟨i, .refl, .inr ⟨s, t, stmt, marked, rest, rfl, hemits, hat, hlast, hrest⟩⟩
  | @label i _ _ hline hlast _ ih =>
    obtain ⟨j, hgoes, hthere⟩ := ih
    have hlabel : x.Goes outcomes ⟨i, asked, compared, trace⟩ ⟨i + 1, asked, compared, trace ++ []⟩ :=
      Track.goes_line hline rfl hlast
    rw [List.append_nil] at hlabel
    exact ⟨j, hlabel.trans hgoes, hthere⟩
  | @jump i k _ _ hline hlabel _ ih =>
    obtain ⟨j, hgoes, hthere⟩ := ih
    have hjump : x.Goes outcomes ⟨i, asked, compared, trace⟩ ⟨k, asked, compared, trace ++ []⟩ :=
      Track.goes_jump hline hlabel
    rw [List.append_nil] at hjump
    exact ⟨j, hjump.trans hgoes, hthere⟩

theorem Follows.next {w : Walk} {m : Machine} (h : Follows x body w m)
    (hfinish : x.finish = body.finish) :
    ∃ m', x.Goes outcomes m m' ∧ Follows x body (w.next outcomes) m' := by
  obtain ⟨pending, asked, parts⟩ := w
  obtain ⟨line, asked', compared, trace⟩ := m
  obtain ⟨hleads, hasked, htrace⟩ := h
  obtain rfl : asked' = asked := hasked
  obtain rfl : trace = parts.flatMap Part.span := htrace
  obtain ⟨j, hgoes, hthere⟩ := hleads.arrives
  rcases hthere with ⟨hnil, rfl⟩ | ⟨s, t, stmt, marked, rest, hcons, hemits, hat, hlast, hrest⟩
  · obtain rfl : pending = [] := hnil
    exact ⟨_, hgoes, .done, rfl, rfl⟩
  · obtain rfl : pending = stmt :: rest := hcons
    obtain ⟨m', hgoes', hnext⟩ := hemits.follows hfinish hat hlast hrest parts
    exact ⟨m', hgoes.trans hgoes', hnext⟩

theorem Follows.run {w : Walk} {m : Machine} (h : Follows x body w m)
    (hfinish : x.finish = body.finish) (k : Nat) :
    ∃ m', x.Goes outcomes m m' ∧ Follows x body (w.run outcomes k) m' := by
  induction k generalizing w m with
  | zero => exact ⟨m, .refl, h⟩
  | succ k ih =>
    obtain ⟨m', hgoes, hnext⟩ := h.next hfinish
    obtain ⟨m'', hgoes', hrun⟩ := ih hnext
    exact ⟨m'', hgoes.trans hgoes', hrun⟩

theorem Follows.stops {w : Walk} {m : Machine} (h : Follows x body w m) (hw : w.pending = []) :
    ∃ m', x.Goes outcomes m m' ∧ m'.Stops x.code x.finish ∧ m'.trace = w.events := by
  have hleads := h.leads
  rw [hw] at hleads
  obtain ⟨j, hgoes, ⟨_, rfl⟩ | ⟨_, _, _, _, _, hcons, _⟩⟩ := hleads.arrives
  · exact ⟨_, hgoes, x.at_last, h.trace⟩
  · nomatch hcons

theorem Follows.sameFlow {w : Walk} {start m : Machine} (h : Follows x body w m)
    (hfinish : x.finish = body.finish) (hstart : x.Goes outcomes start m) :
    SameFlow x.code x.finish outcomes start w := by
  have hcomplete (k : Nat) : ∃ n, (start.run x.code x.finish outcomes n).trace =
      (w.run outcomes k).events := by
    obtain ⟨m', hgoes, hrun⟩ := h.run hfinish k
    obtain ⟨n, rfl⟩ := hstart.trans hgoes
    exact ⟨n, hrun.trace⟩
  have hstops (k : Nat) (hends : (w.run outcomes k).pending = []) :
      ∃ n, (start.run x.code x.finish outcomes n).Stops x.code x.finish ∧
        (start.run x.code x.finish outcomes n).trace = (w.run outcomes k).events := by
    obtain ⟨m', hgoes, hrun⟩ := h.run hfinish k
    obtain ⟨m'', hgoes', hstop, htrace⟩ := hrun.stops hends
    obtain ⟨n, rfl⟩ := (hstart.trans hgoes).trans hgoes'
    exact ⟨n, hstop, htrace⟩
  refine ⟨hcomplete, fun n => ?_, ⟨fun ⟨n, hn⟩ => ?_, fun ⟨k, hk⟩ => ?_⟩, fun n k hn hk => ?_⟩
  · -- a walk that does not end before has a longer trace at some time
    obtain ⟨k, hends | hlength⟩ := w.ends_or_reaches outcomes
      (start.run x.code x.finish outcomes n).trace.length
    · obtain ⟨a, hstop, htrace⟩ := hstops k hends
      exact ⟨k, htrace ▸ Machine.trace_of_stops hstop n⟩
    · obtain ⟨a, htrace⟩ := hcomplete k
      refine ⟨k, ?_⟩
      rw [← htrace]
      rcases Nat.le_total n a with hle | hle
      · exact Machine.trace_mono hle start
      · have hmono := @Machine.trace_mono x.code x.finish outcomes _ _ hle start
        have hevents := (w.run outcomes k).length_events
        rw [← htrace] at hevents
        have heq := hmono.eq_of_length_le (by omega)
        exact heq ▸ List.prefix_rfl
  · obtain ⟨k, hends | hlength⟩ := w.ends_or_reaches outcomes
      ((start.run x.code x.finish outcomes n).trace.length + 1)
    · exact ⟨k, hends⟩
    · obtain ⟨a, htrace⟩ := hcomplete k
      have hbound := (Machine.trace_of_stops hn a).length_le
      have hevents := (w.run outcomes k).length_events
      rw [← htrace] at hevents
      omega
  · obtain ⟨n, hstop, _⟩ := hstops k hk
    exact ⟨n, hstop⟩
  · obtain ⟨a, hstop, htrace⟩ := hstops k hk
    rw [← htrace]
    exact (Machine.trace_of_stops hstop n).eq_of_length_le (Machine.trace_of_stops hn a).length_le

end

namespace CompiledFunction

variable {env : Environment} {node : Node} {decls : List Decl} {program : Program}
  (f : CompiledFunction env decls)

/-- The code of the program, with marks in the body of the function. -/
def markedProgram (marked : MarkedCode) (rest : Code) : MarkedCode :=
  unmarked (f.ahead.code ++ f.opening) ++ marked ++ unmarked (f.closing ++ rest)

theorem exists_rest (hlower : env.lower (.program node decls) = .ok program) {marked : MarkedCode}
    (hmarked : marked.lines = f.code) :
    ∃ rest, (f.markedProgram marked rest).lines = program.code := by
  obtain ⟨rest, _, _, _, rfl⟩ := f.placed hlower
  refine ⟨rest.code, ?_⟩
  simp [markedProgram, hmarked, lines]

theorem sameFlow (h : Accepted env IsName decls)
    (hlower : env.lower (.program node decls) = .ok program) {marked : MarkedCode} {rest : Code}
    (hemits : Emits f.body f.inside (.block f.definition.body) marked f.behind)
    (hmarked : marked.lines = f.code) (hlines : (f.markedProgram marked rest).lines = program.code)
    (outcomes : Outcomes) :
    SameFlow (f.markedProgram marked rest) f.finish outcomes (.start f.startAt)
      (.ofBlock f.definition.body) := by
  have hlength : marked.length = f.code.length := by
    rw [← hmarked, MarkedCode.lines, List.length_map]
  let x : Track := ⟨f.markedProgram marked rest, f.finish, f.finishAt,
    hlines ▸ h.code_labels_nodup hlower, hlines ▸ f.code_finishAt hlower⟩
  have hopening : At x.code f.startAt (unmarked f.opening) := by
    refine ⟨unmarked f.ahead.code, marked ++ unmarked (f.closing ++ rest), ?_, ?_⟩
    · simp [x, markedProgram, MarkedCode.unmarked_append]
    · simp [startAt, unmarked]
  have hbody : At x.code f.bodyAt marked := by
    refine ⟨unmarked (f.ahead.code ++ f.opening), unmarked (f.closing ++ rest), rfl, ?_⟩
    simp [bodyAt, startAt, unmarked]
  have hend : f.bodyAt + marked.length = x.last := by rw [hlength]; rfl
  have hdone : Leads x f.body (f.bodyAt + marked.length) [] := by
    rw [hend]
    exact .done
  have hleads := hemits.leads hbody (Nat.le_of_eq hend) hdone
  rw [List.append_nil] at hleads
  have hpasses : Passes (unmarked f.opening) :=
    .append (.line rfl) (.of_silent (Code.prologue_silent f.frame.localBytes))
  have hunmarked : (unmarked f.opening).length = f.opening.length := List.length_map _
  obtain ⟨compared, hgoes⟩ := @Passes.goes x outcomes f.startAt 0 0 [] _ hpasses hopening
    (by rw [hunmarked]; exact Nat.le_add_right _ _)
  rw [hunmarked, MarkedCode.events_unmarked] at hgoes
  exact Follows.sameFlow (x := x) ⟨hleads, rfl, rfl⟩ rfl hgoes

end CompiledFunction

/-- The conditions that the code of a function evaluates and the calls, assignments and returns that
it executes are those of its statements, in the same order, however the conditions turn out. The end
label is reached just when the statements come to an end. -/
theorem control_flow_preserved {source : String} {options : Options} {text : String} {count : Nat}
    (h : compileText source options = .ok ⟨some text, count⟩) :
    ∃ (env : Environment) (decls : List Decl) (program : Program),
      env = .ofText source options.entry ∧ decls = (Tree.ofText source).decls ∧
      env.lower (Tree.ofText source) = .ok program ∧ text = program.text ∧
      (∀ definition, .func definition ∈ decls →
        ∃ f : CompiledFunction env decls, f.definition = definition) ∧
      ∀ f : CompiledFunction env decls, ∃ marked rest,
        Emits f.body f.inside (.block f.definition.body) marked f.behind ∧ marked.lines = f.code ∧
        (f.markedProgram marked rest).lines = program.code ∧
        program.code[f.startAt]? = some (.label f.start) ∧
        ∀ outcomes, SameFlow (f.markedProgram marked rest) f.finish outcomes (.start f.startAt)
          (.ofBlock f.definition.body) := by
  obtain ⟨node, decls, program, htree, haccepted, hlower, rfl, _⟩ := compileText_ok h
  rw [htree]
  generalize Environment.ofText source options.entry = env at haccepted hlower ⊢
  refine ⟨env, decls, program, rfl, rfl, hlower, rfl,
    fun _ => CompiledFunction.exists_of_lower hlower, fun f => ?_⟩
  obtain ⟨marked, hemits, hmarked⟩ := f.emits
  obtain ⟨rest, hlines⟩ := f.exists_rest hlower hmarked
  exact ⟨marked, rest, hemits, hmarked, hlines, (f.at_lines hlower).get,
    f.sameFlow haccepted hlower hemits hmarked hlines⟩

def counting : String :=
  "func main() : void \x7b var a : float; while a < 9.5 \x7b if a > 0.5 \x7b let a = 1.0; \x7d \x7d \x7d"

/-- The loop is left when its condition fails, here the third one that is evaluated. -/
theorem counting_stops :
    ∃ text count, compileText counting ⟨"main", false⟩ = .ok ⟨some text, count⟩ ∧
      ∃ env decls, ∃ program : Program, text = program.text ∧
        ∃ (f : CompiledFunction env decls) (marked : MarkedCode) (rest : Code),
          (f.markedProgram marked rest).lines = program.code ∧
          ∃ n, ((Machine.start f.startAt).run (f.markedProgram marked rest) f.finish
            ⟨(· < 2), fun _ => true⟩ n).Stops (f.markedProgram marked rest) f.finish := by
  have hclean : ((∀ n ∈ (parse (Scanner.ofText counting)).tree.argCounts,
          n * wordBytes < Word.count) ∧
        (parse (Scanner.ofText counting)).log = [] ∧
        (check (parse (Scanner.ofText counting)).symbols "main"
          (parse (Scanner.ofText counting)).tree).log = []) ∧
      (parse (Scanner.ofText counting)).tree.decls.any fun decl =>
        decl.definition?.any fun definition => ((Walk.ofBlock definition.body).run
          ⟨(· < 2), fun _ => true⟩ 5).pending.isEmpty := by
    decide +kernel
  obtain ⟨text, count, h, _⟩ := compileText_of_clean hclean.1
  obtain ⟨env, decls, program, _, hdecls, _, htext, hfunctions, hflow⟩ := control_flow_preserved h
  obtain ⟨decl, hmem, hends⟩ := List.any_eq_true.1 hclean.2
  cases decl with
  | func definition =>
    obtain ⟨f, rfl⟩ := hfunctions definition (hdecls ▸ hmem)
    obtain ⟨marked, rest, _, _, hlines, _, hsame⟩ := hflow f
    exact ⟨text, count, h, env, decls, program, htext, f, marked, rest, hlines,
      (hsame _).ends.2 ⟨5, List.isEmpty_iff.1 hends⟩⟩
  | var | array => exact absurd hends Bool.false_ne_true

end MipsCompiler
