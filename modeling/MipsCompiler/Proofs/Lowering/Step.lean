import MipsCompiler.Lowering.Program
import MipsCompiler.Proofs.Run

set_option autoImplicit false

/-!
# Steps of lowering

Successful runs of the steps that lowering is made of, as equations between states.
-/

namespace MipsCompiler

namespace LowerState

def request (s : LowerState) (name : String) : LowerState :=
  { s with labels := (s.labels.request name).2 }

def label (s : LowerState) (name : String) : String :=
  (s.labels.request name).1

@[simp] theorem request_depth (s : LowerState) (name : String) :
    (s.request name).depth = s.depth := rfl

end LowerState

namespace Lower

variable {α : Type} {s t : LowerState} {code : Code}

theorem refuse_ok {refusal : Refusal} {a : α} : ¬ refuse refusal s = .ok a t :=
  throw_ok

theorem ofExcept_ok {result : Except Refusal α} {a : α} :
    ofExcept result s = .ok a t ↔ result = .ok a ∧ t = s := by
  cases result with
  | ok b =>
    simp only [ofExcept, pure_ok, Except.ok.injEq]
    exact and_congr_left fun _ => eq_comm
  | error refusal => simp [ofExcept, refuse_ok]

theorem perform_ok {op : StackOp} :
    perform op s = .ok code t ↔
      ∃ depth, op.depthAfter s.depth = .ok depth ∧ code = op.lines ∧
        t = { s with depth := depth } := by
  simp only [perform, bind_ok, get_ok, and_assoc, exists_and_left, exists_eq_left]
  cases hdepth : op.depthAfter s.depth with
  | ok depth =>
    simp only [bind_ok, set_ok, pure_ok, exists_const, exists_eq_left, Except.ok.injEq,
      exists_eq_left']
  | error fault => simp [throw_ok]

theorem performIf_ok {condition : Bool} {op : StackOp} :
    performIf condition op s = .ok code t ↔
      (condition = true ∧ perform op s = .ok code t) ∨ (condition = false ∧ code = [] ∧ t = s) := by
  cases condition <;> simp [performIf, pure_ok]

theorem requestLabel_ok {name label : String} :
    requestLabel name s = .ok label t ↔ label = s.label name ∧ t = s.request name :=
  result_ok

theorem balanced_ok {pos : Position} {lower : Lower Code} :
    balanced pos lower s = .ok code t ↔ lower s = .ok code t ∧ t.depth = s.depth := by
  simp only [balanced, bind_ok, get_ok, and_assoc, exists_and_left, exists_eq_left]
  constructor
  · rintro ⟨code', t', hlower, h⟩
    split at h
    · next hdepth =>
      obtain ⟨rfl, rfl⟩ := pure_ok.1 h
      exact ⟨hlower, hdepth⟩
    · exact absurd h throw_ok
  · rintro ⟨hlower, hdepth⟩
    refine ⟨code, t, hlower, ?_⟩
    rw [if_pos hdepth, pure_ok]
    exact ⟨rfl, rfl⟩

end Lower

theorem Environment.typeOf_ok {env : Environment} {node : Node} {ty : Ty} {s t : LowerState} :
    env.typeOf node s = .ok ty t ↔ env.types.get? node.id = some ty ∧ t = s := by
  unfold typeOf
  cases env.types.get? node.id with
  | some ty' =>
    simp only [pure_ok, Option.some.injEq]
    exact and_congr_left fun _ => eq_comm
  | none => simp [Lower.refuse_ok]

def Body.innerName (body : Body) (suffix : String) : String :=
  body.name ++ "." ++ suffix

theorem Body.requestLabel_ok {body : Body} {suffix label : String} {s t : LowerState} :
    body.requestLabel suffix s = .ok label t ↔
      label = s.label (body.innerName suffix) ∧ t = s.request (body.innerName suffix) :=
  Lower.requestLabel_ok

theorem sizeAt_ok {pos : Position} {ty : Ty} {bytes : Nat} :
    sizeAt pos ty = .ok bytes ↔ ty.size? = some bytes := by
  unfold sizeAt
  cases ty.size? <;> simp

end MipsCompiler
