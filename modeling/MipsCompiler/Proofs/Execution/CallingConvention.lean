import Mathlib.Data.BitVec
import Mathlib.Data.List.Forall2
import MipsCompiler.Proofs.Execution.Expression
import MipsCompiler.Proofs.StackBalance
import MipsCompiler.Proofs.StorageLayout

set_option autoImplicit false

/-!
# Calls

A caller pushes the arguments from left to right and jumps to the callee, which saves `$fp` and `$ra`
below them and reserves its locals. At the end label the callee removes what it reserved, restores
both registers and returns, and the caller takes the arguments off the stack. Both sides count the
same words, so that parameters are found where arguments were pushed, and the stack pointer comes
back to where it was.
-/

namespace MipsCompiler

/-! ## Frames -/

theorem Word.sub_ofNat_add (a : Word) (m n : Nat) :
    a - .ofNat 32 (m + n) = a - .ofNat 32 m - .ofNat 32 n := by
  rw [BitVec.ofNat_add]
  bv_omega

namespace CpuState

/-- A frame with `locals` bytes for locals is set up right below the stack pointer, with the return
address `back`. -/
structure Framed (st : CpuState) (back : Word) (locals : Nat) (st' : CpuState) : Prop where
  fp : st'.get .fp = st.get .sp
  sp : st'.get .sp = st.get .sp - .ofNat 32 (savedSize + locals)
  savedFp : st'.memory.word (st.get .sp - 8#32) = st.get .fp
  savedRa : st'.memory.word (st.get .sp - 4#32) = back

structure Unframed (st : CpuState) (base : Word) (st' : CpuState) : Prop where
  sp : st'.get .sp = base
  fp : st'.get .fp = st.memory.word (base - 8#32)
  ra : st'.get .ra = st.memory.word (base - 4#32)
  v0 : st'.get .v0 = st.get .v0

theorem Framed.of_link {st st' : CpuState} {back : Word} {locals : Nat}
    (h : (st.set .ra back).Framed ((st.set .ra back).get .ra) locals st') :
    st.Framed back locals st' := by
  have hsp := get_set_of_ne st .ra .sp back (by decide)
  obtain ⟨hfp, hlow, hsavedFp, hsavedRa⟩ := h
  rw [hsp] at hfp hlow hsavedFp hsavedRa
  rw [get_set_of_ne st .ra .fp back (by decide)] at hsavedFp
  rw [get_set_self st .ra back (by decide)] at hsavedRa
  exact ⟨hfp, hlow, hsavedFp, hsavedRa⟩

end CpuState

namespace Mips

variable {M : Mips}

theorem Runs.prologue (locals : Nat) (st : CpuState) :
    ∃ st', M.Runs (Code.prologue locals) st st' ∧ st.Framed (st.get .ra) locals st' := by
  have hruns : M.Runs (Code.prologue locals) st _ :=
    .cons rfl (.cons rfl (.cons rfl (.cons rfl (.straight rfl))))
  have hsecond : st.get .sp - 8#32 + 4#32 = st.get .sp - 4#32 := by bv_omega
  have hapart (b : Word) (h : Memory.Covers (st.get .sp - 8#32) b) :
      ¬ Memory.Covers (st.get .sp - 4#32) b := by
    rw [Memory.Covers, wordBytes] at h ⊢
    bv_omega
  refine ⟨_, hruns, ?_, ?_, ?_, ?_⟩
  · simp (disch := decide) [effect, CpuState.get_set_self, CpuState.get_set_of_ne,
      ImmediateOp.apply, savedSize]
  · simp (disch := decide) [effect, CpuState.get_set_self, CpuState.get_set_of_ne,
      ImmediateOp.apply, savedSize, Word.sub_ofNat_add]
  · simp (disch := decide) [effect, CpuState.get_set_self, CpuState.get_set_of_ne,
      ImmediateOp.apply, savedSize, hsecond, Memory.word_store_of_apart hapart, Memory.word_store]
  · simp (disch := decide) [effect, CpuState.get_set_self, CpuState.get_set_of_ne,
      ImmediateOp.apply, savedSize, hsecond, Memory.word_store]

theorem epilogue_reaches {locals i : Nat} (hat : At M.code i (Code.epilogue locals))
    {st : CpuState} {base : Word} (hsp : st.get .sp = base - .ofNat 32 (savedSize + locals)) :
    ∃ st', M.Reaches ⟨i, st⟩ ⟨M.line (st.memory.word (base - 4#32)), st'⟩ ∧
      st.Unframed base st' := by
  have hsaved : st.get .sp + .ofNat 32 locals = base - 8#32 := by
    rw [hsp, savedSize, Word.sub_ofNat_add, BitVec.sub_add_cancel]
  have hsecond : base - 8#32 + 4#32 = base - 4#32 := by bv_omega
  have hsplit : Code.epilogue locals =
      (Code.epilogue locals).take 4 ++ [.instr (.jumpRegister .ra)] := rfl
  have hruns : M.Runs ((Code.epilogue locals).take 4) st _ :=
    .cons rfl (.cons rfl (.cons rfl (.straight rfl)))
  rw [hsplit] at hat
  have hreturn := (hruns i hat.left).trans (.one (step_jumpRegister hat.right.get _))
  have hunframed : st.Unframed base (M.effect (M.effect (M.effect (M.effect st
      (.immediate .addu .sp .sp locals)) (.loadWord .ra 4 .sp)) (.loadWord .fp 0 .sp))
      (.immediate .addu .sp .sp savedSize)) := by
    constructor
    all_goals
      simp (disch := decide) [effect, CpuState.get_set_self, CpuState.get_set_of_ne,
        ImmediateOp.apply, savedSize, hsaved, hsecond]
  rw [hunframed.ra] at hreturn
  exact ⟨_, hreturn, hunframed⟩

theorem Runs.drop (words : Nat) (st : CpuState) :
    M.Runs (StackOp.drop words).lines st
      (st.set .sp (st.get .sp + .ofNat 32 (wordBytes * words))) := by
  have hbytes : BitVec.ofInt 32 (StackOp.droppedBytes words) = .ofNat 32 (wordBytes * words) := by
    rw [BitVec.ofInt_natCast]
    apply BitVec.eq_of_toNat_eq
    rw [BitVec.toNat_ofNat, BitVec.toNat_ofNat, StackOp.droppedBytes, Word.count, Nat.mul_comm,
      Nat.mul_mod, Nat.mod_mod, ← Nat.mul_mod]
  rw [StackOp.lines]
  split
  · rename_i hwords
    rw [hwords, Nat.mul_zero, BitVec.add_zero, CpuState.set_get st .sp (by decide)]
    exact .nil
  · rw [← hbytes]
    exact .straight rfl

/-! ## Arguments -/

/-- Each of the pieces of code pushes a word. `places` are the addresses of these words. -/
inductive PushesEach (M : Mips) : Nat → CpuState → List Code → List Word → CpuState → Prop
  | nil {i : Nat} {st : CpuState} : PushesEach M i st [] [] st
  | cons {i : Nat} {st st' st'' : CpuState} {piece : Code} {pieces : List Code}
      {places : List Word} :
      M.Reaches ⟨i, st⟩ ⟨i + piece.length, st'⟩ → st'.get .sp = st.get .sp - 4#32 →
      PushesEach M (i + piece.length) st' pieces places st'' →
      PushesEach M i st (piece :: pieces) (st'.get .sp :: places) st''

namespace PushesEach

variable {i : Nat} {st st' : CpuState} {pieces : List Code} {places : List Word}

theorem reaches (h : M.PushesEach i st pieces places st') :
    M.Reaches ⟨i, st⟩ ⟨i + pieces.flatten.length, st'⟩ := by
  induction h with
  | nil => exact .refl
  | cons hpiece _ _ ih =>
    rw [List.flatten_cons, List.length_append, ← Nat.add_assoc]
    exact hpiece.trans ih

theorem sp_eq (h : M.PushesEach i st pieces places st') :
    st'.get .sp = st.get .sp - .ofNat 32 (4 * pieces.length) := by
  induction h with
  | nil => exact (BitVec.sub_zero _).symm
  | cons _ hsp _ ih =>
    rw [ih, hsp, List.length_cons, Nat.mul_add, Nat.add_comm, Word.sub_ofNat_add]

theorem places_getElem? (h : M.PushesEach i st pieces places st') {k : Nat}
    (hk : k < pieces.length) :
    places[k]? = some (st.get .sp - .ofNat 32 (4 * (k + 1))) := by
  induction h generalizing k with
  | nil => exact absurd hk (Nat.not_lt_zero k)
  | cons _ hsp _ ih =>
    cases k with
    | zero => rw [List.getElem?_cons_zero, hsp]
    | succ k =>
      rw [List.getElem?_cons_succ, ih (Nat.lt_of_succ_lt_succ hk), hsp, Nat.mul_add 4 (k + 1),
        Nat.add_comm (4 * (k + 1)), Word.sub_ofNat_add]

end PushesEach

end Mips

theorem paramOffset_add {n k : Nat} (hk : k < n) (top : Word) :
    top - .ofNat 32 (4 * n) + .ofInt 32 (paramOffset n k) = top - .ofNat 32 (4 * (k + 1)) := by
  obtain ⟨rest, rfl⟩ : ∃ rest, n = k + 1 + rest := Nat.exists_eq_add_of_le hk
  have hoffset : paramOffset (k + 1 + rest) k = (4 * rest : Nat) := by
    rw [paramOffset]
    omega
  rw [hoffset, BitVec.ofInt_natCast, Nat.mul_add, Word.sub_ofNat_add, BitVec.sub_add_cancel]

namespace Expr

variable {body : Body} {s t : LowerState} {code : Code}

theorem lowerAll_pieces {args : List Expr} {words : Nat}
    (h : lowerAll body args s = .ok (code, words) t) :
    ∃ pieces : List Code, code = pieces.flatten ∧
      List.Forall₂ (fun e piece => ∃ u v, e.lower body u = .ok piece v) args pieces := by
  induction args generalizing s code words with
  | nil =>
    obtain ⟨heq, _⟩ := pure_ok.1 h
    exact ⟨[], (Prod.mk.inj heq).1, .nil⟩
  | cons e es ih =>
    simp only [lowerAll, bind_ok, pure_ok, Environment.typeOf_ok, Lower.ofExcept_ok,
      Prod.exists, Prod.mk.injEq, and_assoc, exists_and_left, exists_eq_left] at h
    obtain ⟨first, u, hfirst, _, _, _, _, _, _, _, hrest, rfl, _, rfl⟩ := h
    obtain ⟨pieces, rfl, hpieces⟩ := ih hrest
    exact ⟨first :: pieces, rfl, .cons ⟨s, u, hfirst⟩ hpieces⟩

end Expr

def Symbol.release (symbol : Symbol) (words : Nat) : Code :=
  (StackOp.drop words).lines ++ if symbol.ty.yieldsWord then (StackOp.pushWord .v0).lines else []

theorem Expr.call_lower_ok {body : Body} {s t : LowerState} {code : Code} {node : Node}
    {callee : SymbolId} {args : List Expr}
    (h : (Expr.call node callee args).lower body s = .ok code t) :
    ∃ inner words u, Expr.lowerAll body args s = .ok (inner, words) u ∧
      code = inner ++ .instr (.jumpLink ((body.env.symbols.get callee).callLabel body.env.entry)) ::
        (body.env.symbols.get callee).release words := by
  simp only [Expr.lower, Body.jumpTo, bind_ok, pure_ok, Prod.exists] at h
  obtain ⟨inner, words, u, hinner, jump, _, ⟨release, _, hrelease, push, _, hpush, rfl, _⟩, rfl,
    _⟩ := h
  refine ⟨inner, words, u, hinner, ?_⟩
  obtain ⟨_, _, rfl, _⟩ := Lower.perform_ok.1 hrelease
  rw [Symbol.release]
  rcases Lower.performIf_ok.1 hpush with ⟨hyields, hpush⟩ | ⟨hyields, rfl, _⟩
  · obtain ⟨_, _, rfl, _⟩ := Lower.perform_ok.1 hpush
    rw [if_pos hyields]
  · rw [hyields]
    rfl

/-! ## Callees -/

namespace FunctionSite

variable {env : Environment}

/-- The function is entered, with `n` arguments below the address `top`, at `places`. -/
structure Entered (f : FunctionSite env) (top : Word) (n : Nat) (places : List Word)
    (st : CpuState) : Prop where
  fp : st.get .fp = top - .ofNat 32 (4 * n)
  sp : st.get .sp = st.get .fp - .ofNat 32 (savedSize + f.frame.localBytes)
  slots : ∀ k param, f.definition.params[k]? = some param → ∃ offset,
    f.frame.offset? param = some offset ∧
      st.get .fp + .ofInt 32 offset = top - .ofNat 32 (4 * (k + 1)) ∧
      places[k]? = some (top - .ofNat 32 (4 * (k + 1)))

/-- What the body leaves behind when it was entered in `st`: the saved words, and the stack pointer
below the locals, or below the result. -/
structure Finished (f : FunctionSite env) (st st' : CpuState) : Prop where
  savedFp : st'.memory.word (st.get .fp - 8#32) = st.memory.word (st.get .fp - 8#32)
  savedRa : st'.memory.word (st.get .fp - 4#32) = st.memory.word (st.get .fp - 4#32)
  sp : st'.get .sp = if f.symbol.ty.yieldsWord then st.get .sp - 4#32 else st.get .sp

/-- The call is over: the registers are those of the caller, where `back` is the return address, and
a result is the word that `st` had on top of the stack. -/
structure Returned (f : FunctionSite env) (top : Word) (caller : CpuState) (back : Word)
    (st st' : CpuState) : Prop where
  fp : st'.get .fp = caller.get .fp
  ra : st'.get .ra = back
  void : f.symbol.ty.yieldsWord = false → st'.get .sp = top
  value : f.symbol.ty.yieldsWord = true → st'.get .sp = top - 4#32 ∧ st'.top = st.top

end FunctionSite

namespace CompiledFunction

variable {env : Environment} {node : Node} {decls : List Decl} {program : Program} {M : Mips}

theorem enters (hlower : env.lower (.program node decls) = .ok program)
    (hcode : M.code = program.code) (hlabels : M.code.labels.Nodup)
    (f : CompiledFunction env decls) {j : Nat}
    (hj : M.code[j]? = some (.instr (.jumpLink f.start))) (st : CpuState) :
    ∃ st', M.Reaches ⟨j, st⟩ ⟨f.bodyAt, st'⟩ ∧
      st.Framed (M.address (j + 1)) f.frame.localBytes st' := by
  have hopening : At M.code f.startAt f.opening := hcode ▸ (f.at_lines hlower).left.left
  have hjump := Mips.step_jumpLink hlabels hj hopening.get st
  have hlabel := Mips.step_label hopening.get (st.set .ra (M.address (j + 1)))
  obtain ⟨st', hruns, hframed⟩ :=
    Mips.Runs.prologue (M := M) f.frame.localBytes (st.set .ra (M.address (j + 1)))
  have hprologue := hruns _ hopening.tail
  rw [Nat.add_assoc, Nat.add_comm 1] at hprologue
  exact ⟨st', .step hjump (.step hlabel hprologue), hframed.of_link⟩

theorem takes (f : CompiledFunction env decls) {st st' : CpuState}
    (hfinished : f.Finished st st') :
    ∃ u, M.Runs (if f.symbol.ty.yieldsWord then Code.retrieve .v0 else []) st' u ∧
      u.get .sp = st.get .sp ∧ u.memory = st'.memory ∧
      (f.symbol.ty.yieldsWord = true → u.get .v0 = st'.top) := by
  have hsp := hfinished.sp
  cases hyields : f.symbol.ty.yieldsWord with
  | false =>
    rw [hyields] at hsp
    exact ⟨st', .nil, hsp, rfl, fun h => absurd h Bool.false_ne_true⟩
  | true =>
    rw [hyields, if_pos rfl] at hsp
    refine ⟨(st'.set .v0 st'.top).pop, Mips.Runs.popWord st', ?_, rfl, fun _ => ?_⟩
    · rw [CpuState.sp_pop, CpuState.get_set_of_ne st' .v0 .sp _ (by decide), hsp,
        BitVec.sub_add_cancel]
    · rw [CpuState.get_pop_of_ne _ .v0 (by decide), CpuState.get_set_self _ _ _ (by decide)]

theorem leaves (hlower : env.lower (.program node decls) = .ok program)
    (hcode : M.code = program.code) (f : CompiledFunction env decls)
    (hname : f.symbol.name ≠ env.entry) {caller st st' : CpuState} {back : Word}
    (hframed : caller.Framed back f.frame.localBytes st) (hfinished : f.Finished st st') :
    ∃ st'', M.Reaches ⟨f.finishAt, st'⟩ ⟨M.line back, st''⟩ ∧
      st''.get .sp = caller.get .sp ∧ st''.get .fp = caller.get .fp ∧ st''.get .ra = back ∧
      (f.symbol.ty.yieldsWord = true → st''.get .v0 = st'.top) := by
  have hclosing : At M.code f.finishAt f.closing := by
    have hright := (f.at_lines hlower).right
    rw [List.length_append, ← Nat.add_assoc] at hright
    exact hcode ▸ hright
  rw [FunctionSite.closing, Environment.ending, if_neg hname] at hclosing
  have hlabel := Mips.step_label hclosing.get st'
  obtain ⟨u, hruns, hsp, hmemory, hresult⟩ := takes (M := M) f hfinished
  obtain ⟨st'', hreturn, hunframed⟩ :=
    Mips.epilogue_reaches hclosing.tail.right (hsp.trans hframed.sp)
  have hsavedFp : u.memory.word (caller.get .sp - 8#32) = caller.get .fp := by
    rw [hmemory, ← hframed.fp, hfinished.savedFp, hframed.fp, hframed.savedFp]
  have hsavedRa : u.memory.word (caller.get .sp - 4#32) = back := by
    rw [hmemory, ← hframed.fp, hfinished.savedRa, hframed.fp, hframed.savedRa]
  rw [hsavedRa] at hreturn
  exact ⟨st'', .step hlabel ((hruns _ hclosing.tail.left).trans hreturn), hunframed.sp,
    hunframed.fp.trans hsavedFp, hunframed.ra.trans hsavedRa,
    fun hyields => hunframed.v0.trans (hresult hyields)⟩

end CompiledFunction

theorem Mips.Runs.release {M : Mips} (symbol : Symbol) (words : Nat) (st : CpuState) :
    ∃ st', M.Runs (symbol.release words) st st' ∧ st'.get .fp = st.get .fp ∧
      st'.get .ra = st.get .ra ∧
      (symbol.ty.yieldsWord = false → st'.get .sp = st.get .sp + .ofNat 32 (4 * words)) ∧
      (symbol.ty.yieldsWord = true →
        st'.get .sp = st.get .sp + .ofNat 32 (4 * words) - 4#32 ∧ st'.top = st.get .v0) := by
  have hdrop := Mips.Runs.drop (M := M) words st
  rw [Symbol.release]
  generalize hdropped : st.set .sp (st.get .sp + .ofNat 32 (wordBytes * words)) = u at hdrop
  have hsp : u.get .sp = st.get .sp + .ofNat 32 (4 * words) := by
    rw [← hdropped]
    exact CpuState.get_set_self st .sp _ (by decide)
  have hkept {r : Reg} (h : r ≠ .sp) : u.get r = st.get r := by
    rw [← hdropped]
    exact CpuState.get_set_of_ne st .sp r _ h
  cases hyields : symbol.ty.yieldsWord with
  | false =>
    exact ⟨u, hdrop.append .nil, hkept (by decide), hkept (by decide), fun _ => hsp,
      fun h => absurd h Bool.false_ne_true⟩
  | true =>
    refine ⟨u.push (u.get .v0), hdrop.append (.pushWord u (by decide)), ?_, ?_,
      fun h => absurd h.symm Bool.false_ne_true, fun _ => ⟨?_, ?_⟩⟩
    · rw [CpuState.get_push_of_ne u .fp _ (by decide), hkept (by decide)]
    · rw [CpuState.get_push_of_ne u .ra _ (by decide), hkept (by decide)]
    · rw [CpuState.sp_push, hsp]
    · rw [CpuState.top, CpuState.sp_push, CpuState.memory_push, Memory.word_store,
        hkept (by decide)]

/-! ## Calls in programs -/

/-- The code of a call of `f` agrees with the code of `f`. The line of the jump is `j`, and `S` is the
stack pointer before the arguments are evaluated. -/
def CompiledFunction.Agrees {env : Environment} {decls : List Decl} (f : CompiledFunction env decls)
    (program : Program) (body : Body) (args : List Expr) (code : Code) : Prop :=
  ∃ pieces : List Code,
    List.Forall₂ (fun e piece => ∃ u v, e.lower body u = .ok piece v) args pieces ∧
    code = pieces.flatten ++ .instr (.jumpLink f.start) :: f.symbol.release args.length ∧
    ∀ M : Mips, M.code = program.code → ∀ i j, At M.code i code → j = i + pieces.flatten.length →
      M.line (M.address (j + 1)) = j + 1 →
      ∀ st places st₁ S, st.get .sp = S → M.PushesEach i st pieces places st₁ →
        ∃ st₂, M.Reaches ⟨j, st₁⟩ ⟨f.bodyAt, st₂⟩ ∧ f.Entered S args.length places st₂ ∧
          ∀ st₃, f.Finished st₂ st₃ → ∃ st₄ st₅,
            M.Reaches ⟨f.finishAt, st₃⟩ ⟨j + 1, st₄⟩ ∧
            M.Reaches ⟨j + 1, st₄⟩ ⟨i + code.length, st₅⟩ ∧
            f.Returned S st₁ (M.address (j + 1)) st₃ st₅

namespace Accepted

variable {env : Environment} {node : Node} {decls : List Decl} {program : Program}

theorem offset?_param (h : Accepted env IsName decls) (hfresh : (decls.flatMap Decl.symbols).Nodup)
    (f : CompiledFunction env decls) {k : Nat} {param : SymbolId}
    (hk : f.definition.params[k]? = some param) :
    f.frame.offset? param = some (paramOffset f.definition.params.length k) := by
  obtain ⟨g, slots, hdefinition, _, _, hframe, hapart⟩ :=
    h.exists_apart hfresh f.split f.reached
  have hslots := hapart.frame
  rw [hdefinition, Except.ok.inj (hframe.symm.trans f.framed)] at hslots
  rw [f.split] at hfresh
  have hnodup := (List.nodup_append.1 (List.nodup_append.1 (FuncDef.symbols_nodup hfresh)).1).1
  exact hslots.offset?_param hnodup hk

theorem call_counts (h : Accepted env IsName decls) (g f : CompiledFunction env decls)
    {node : Node} {args : List Expr}
    (hcall : .call node f.definition.symbol args ∈ g.definition.body.exprs) :
    args.length = f.definition.params.length ∧ ∀ s code words t,
      Expr.lowerAll g.body args s = .ok (code, words) t → words = args.length := by
  obtain ⟨_, hg, _⟩ := h.function g
  obtain ⟨_, hf, _⟩ := h.function f
  obtain ⟨_, hcallee⟩ := hg.body.calls hcall
  cases hcallee with
  | call _ hty _ hargs =>
    have hparams := (Ty.func.inj (hty.symm.trans hf.signature)).1
    refine ⟨?_, fun s code words t hrun => ?_⟩
    · rw [hargs.length_eq, hparams, List.length_map]
    · refine @WellTyped.words_eq g.body _ _ _ _ _ _ _ hargs (fun e he => ?_) hrun
      refine h.entered g.definition g.mem e
        (StmtPhrase.subexprs_subset (.block g.definition.body) hcall ?_)
      exact List.mem_cons_of_mem _ (Expr.mem_subexprsAll he)

theorem frame_entered (h : Accepted env IsName decls) (hfresh : (decls.flatMap Decl.symbols).Nodup)
    (f : CompiledFunction env decls) {M : Mips} {i : Nat} {st st₁ st₂ : CpuState}
    {pieces : List Code} {places : List Word} {back : Word}
    (hlength : pieces.length = f.definition.params.length)
    (hpushes : M.PushesEach i st pieces places st₁)
    (hframed : st₁.Framed back f.frame.localBytes st₂) :
    f.Entered (st.get .sp) pieces.length places st₂ where
  fp := by rw [hframed.fp, hpushes.sp_eq]
  sp := by rw [hframed.sp, hframed.fp]
  slots k param hk := by
    have hlt : k < pieces.length := by
      rw [hlength]
      exact (List.getElem?_eq_some_iff.1 hk).1
    refine ⟨_, h.offset?_param hfresh f hk, ?_, hpushes.places_getElem? hlt⟩
    rw [hframed.fp, hpushes.sp_eq, ← hlength, paramOffset_add hlt]

theorem agrees (h : Accepted env IsName decls) (hfresh : (decls.flatMap Decl.symbols).Nodup)
    (hlower : env.lower (.program node decls) = .ok program) (g f : CompiledFunction env decls)
    (hname : f.symbol.name ≠ env.entry) {pos : Node} {args : List Expr}
    (hcall : .call pos f.definition.symbol args ∈ g.definition.body.exprs) {s t : LowerState}
    {code : Code} (hcode : (Expr.call pos f.definition.symbol args).lower g.body s = .ok code t) :
    f.Agrees program g.body args code := by
  obtain ⟨hlength, hwords⟩ := h.call_counts g f hcall
  obtain ⟨inner, words, u, hargs, rfl⟩ := Expr.call_lower_ok hcode
  obtain rfl := hwords _ _ _ _ hargs
  obtain ⟨pieces, rfl, hpieces⟩ := Expr.lowerAll_pieces hargs
  have hlabel : (g.body.env.symbols.get f.definition.symbol).callLabel g.body.env.entry = f.start :=
    h.callLabel_eq f
  rw [hlabel]
  refine ⟨pieces, hpieces, rfl, ?_⟩
  rintro M hM i j hat rfl hback st places st₁ S rfl hpushes
  have hlabels : M.code.labels.Nodup := hM ▸ h.code_labels_nodup hlower
  obtain ⟨st₂, hentering, hframed⟩ := f.enters hlower hM hlabels hat.right.get st₁
  have hentered := h.frame_entered hfresh f (hpieces.length_eq.symm.trans hlength) hpushes hframed
  rw [← hpieces.length_eq] at hentered
  refine ⟨st₂, hentering, hentered, fun st₃ hfinished => ?_⟩
  obtain ⟨st₄, hleaving, hsp₄, hfp₄, hra₄, hv0⟩ := f.leaves hlower hM hname hframed hfinished
  obtain ⟨st₅, hrelease, hfp₅, hra₅, hvoid, hvalue⟩ :=
    Mips.Runs.release (M := M) f.symbol args.length st₄
  have hreleasing := hrelease _ hat.right.tail
  have hend : i + pieces.flatten.length + 1 + (f.symbol.release args.length).length =
      i + (pieces.flatten ++ .instr (.jumpLink f.start) ::
        f.symbol.release args.length).length := by
    rw [List.length_append, List.length_cons]
    omega
  have htop : st₄.get .sp + .ofNat 32 (4 * args.length) = st.get .sp := by
    rw [hsp₄, hpushes.sp_eq, hpieces.length_eq, BitVec.sub_add_cancel]
  rw [htop] at hvoid hvalue
  rw [hback] at hleaving
  refine ⟨st₄, st₅, hleaving, hend ▸ hreleasing, hfp₅.trans hfp₄, hra₅.trans hra₄, hvoid, ?_⟩
  intro hyields
  obtain ⟨hsp₅, htop₅⟩ := hvalue hyields
  exact ⟨hsp₅, htop₅.trans (hv0 hyields)⟩

end Accepted

/-- Caller and callee agree on where the words of a call are. Each parameter is found at the address
where its argument was pushed. When the body of the callee is done, control is back behind the jump,
with the registers of the caller, and the stack holds what it held before the call, and the result
if there is one. -/
theorem calls_follow_convention {source entry : String} {node : Node} {decls : List Decl}
    {program : Program} (hparse : (parse (Scanner.ofText source)).log = [])
    (hcheck : (check (parse (Scanner.ofText source)).symbols entry (Tree.ofText source)).log = [])
    (htree : Tree.ofText source = .program node decls)
    (hlower : (Environment.ofText source entry).lower (.program node decls) = .ok program)
    (g f : CompiledFunction (Environment.ofText source entry) decls)
    (hname : f.symbol.name ≠ entry) {pos : Node} {args : List Expr}
    (hcall : .call pos f.definition.symbol args ∈ g.definition.body.exprs) :
    args.length = f.definition.params.length ∧
      (∃ s code t i, (Expr.call pos f.definition.symbol args).lower g.body s = .ok code t ∧
        At program.code i code) ∧
      ∀ s code t, (Expr.call pos f.definition.symbol args).lower g.body s = .ok code t →
        f.Agrees program g.body args code := by
  obtain ⟨node', decls', htree', haccepted⟩ : ∃ node decls,
      Tree.ofText source = .program node decls ∧
      Accepted (Environment.ofText source entry) IsName decls :=
    accepted_of_clean hparse hcheck fun _ => Scanner.isName_of_ahead
  obtain ⟨_, rfl⟩ := Tree.program.inj (htree'.symm.trans htree)
  have hfresh := (parse_fresh hparse).nodup
  change ((Tree.ofText source).decls.flatMap _).Nodup at hfresh
  rw [htree] at hfresh
  refine ⟨(haccepted.call_counts g f hcall).1, ?_, fun s code t hcode =>
    haccepted.agrees hfresh hlower g f hname hcall hcode⟩
  obtain ⟨s, code, t, hcode, hpart⟩ :=
    @StmtPhrase.isIn _ _ _ _ _ (.block g.definition.body) g.lowered hcall
  obtain ⟨i, hat⟩ := (g.at_lines hlower).left.right.exists_inside hpart
  exact ⟨s, code, t, i, hcode, hat⟩

def passing : String :=
  "func f(a:int,b:float):float\x7bvar c:int;return b;\x7dfunc main():void\x7b::f(1,2.5);\x7d"

def Expr.isLiteralCall (callee : SymbolId) : Expr → Bool
  | .call _ id [.literal _ _, .literal _ _] => id == callee
  | _ => false

theorem passing_follows_convention : ∃ node decls program,
    (Environment.ofText passing "main").lower (.program node decls) = .ok program ∧
      ∃ f : CompiledFunction (Environment.ofText passing "main") decls,
        f.definition.params.length = 2 ∧ f.symbol.ty.yieldsWord = true ∧
        ∃ (M : Mips) (i j k : Nat) (places : List Word) (st st₁ st₂ st₃ st₄ : CpuState),
          M.code = program.code ∧ M.Reaches ⟨i, st⟩ ⟨j, st₁⟩ ∧
          M.Reaches ⟨j, st₁⟩ ⟨f.bodyAt, st₂⟩ ∧ f.Entered (st.get .sp) 2 places st₂ ∧
          f.Finished st₂ st₃ ∧ M.Reaches ⟨f.finishAt, st₃⟩ ⟨k, st₄⟩ ∧
          f.Returned (st.get .sp) st₁ (M.address (j + 1)) st₃ st₄ := by
  have hfacts : (∀ n ∈ (Tree.ofText passing).argCounts, n * wordBytes < Word.count) ∧
      (parse (Scanner.ofText passing)).log = [] ∧
      (check (parse (Scanner.ofText passing)).symbols "main" (Tree.ofText passing)).log = [] ∧
      ∃ caller ∈ (Tree.ofText passing).decls.filterMap Decl.definition?,
        ∃ callee ∈ (Tree.ofText passing).decls.filterMap Decl.definition?,
          ((Environment.ofText passing "main").symbols.get callee.symbol).name ≠ "main" ∧
            ((Environment.ofText passing "main").symbols.get callee.symbol).ty.yieldsWord = true ∧
            ∃ e ∈ caller.body.exprs, e.isLiteralCall callee.symbol := by
    decide +kernel
  obtain ⟨hcounts, hparse, hcheck, caller, hcaller, callee, hcallee, hname, hyields, e, he,
    hliteral⟩ := hfacts
  obtain ⟨program, hprogram, _, node, decls, htree, _⟩ := lower_of_clean hcounts hparse hcheck
  rw [htree] at hprogram
  have hprogram : (Environment.ofText passing "main").lower (.program node decls) = .ok program :=
    hprogram
  have htree : Tree.ofText passing = .program node decls := htree
  rw [htree] at hcaller hcallee
  obtain ⟨g, rfl⟩ := CompiledFunction.exists_of_lower hprogram (Decl.func_mem hcaller)
  obtain ⟨f, rfl⟩ := CompiledFunction.exists_of_lower hprogram (Decl.func_mem hcallee)
  unfold Expr.isLiteralCall at hliteral
  split at hliteral
  · rename_i pos id _ _ _ _
    obtain rfl : id = f.definition.symbol := eq_of_beq hliteral
    obtain ⟨hlength, ⟨s, code, t, i, hcode, hat⟩, hagrees⟩ :=
      calls_follow_convention hparse hcheck htree hprogram g f hname he
    obtain ⟨pieces, hpieces, rfl, hagree⟩ := hagrees s code t hcode
    generalize hj : i + pieces.flatten.length = j
    let M : Mips := ⟨program.code, ⟨fun a _ => a, fun _ a _ => a, fun _ _ _ => false⟩, fun _ => 0,
      fun _ => 0, fun _ => j + 1⟩
    have hpushes : ∃ places st', M.PushesEach i ⟨fun _ => 0, fun _ => 0, false, fun _ => 0⟩ pieces
        places st' := by
      cases hpieces with
      | cons hfirst hrest =>
        cases hrest with
        | cons hsecond hnil =>
          cases hnil
          obtain ⟨_, _, hfirst⟩ := hfirst
          obtain ⟨_, _, hsecond⟩ := hsecond
          obtain ⟨st, hruns, hleaves⟩ := Literal.runs (M := M) hfirst _
          obtain ⟨st', hruns', hleaves'⟩ := Literal.runs (M := M) hsecond st
          exact ⟨_, st', .cons (hruns i hat.left.left) hleaves.sp
            (.cons (hruns' _ hat.left.right.left) hleaves'.sp .nil)⟩
    obtain ⟨places, st₁, hpushes⟩ := hpushes
    obtain ⟨st₂, hentering, hentered, hreturn⟩ :=
      hagree M rfl i j hat hj.symm rfl _ _ _ _ rfl hpushes
    -- the body is left with the word below the locals for its result
    have hfinished : f.Finished st₂ (st₂.set .sp (st₂.get .sp - 4#32)) := by
      refine ⟨rfl, rfl, ?_⟩
      rw [FunctionSite.symbol, if_pos hyields]
      exact CpuState.get_set_self st₂ .sp _ (by decide)
    obtain ⟨_, st₄, hleaving, hreleasing, hreturned⟩ := hreturn _ hfinished
    exact ⟨node, decls, program, hprogram, f, hlength.symm, hyields, M, i, j, _, places, _, st₁, st₂,
      _, st₄, rfl, hj ▸ hpushes.reaches, hentering, hentered, hfinished,
      hleaving.trans hreleasing, hreturned⟩
  · cases hliteral

end MipsCompiler
