set_option autoImplicit false

/-!
# Successful runs

A run that ends well passes through a state after each of its steps. `bind_ok` takes such a run
apart, so that what a program does is read off its text without unfolding the monad.
-/

namespace MipsCompiler

variable {ε σ α β : Type}

theorem bind_ok {x : EStateM ε σ α} {f : α → EStateM ε σ β} {s u : σ} {b : β} :
    (x >>= f) s = .ok b u ↔ ∃ a t, x s = .ok a t ∧ f a t = .ok b u := by
  change EStateM.bind x f s = _ ↔ _
  unfold EStateM.bind
  cases h : x s with
  | ok a t =>
    constructor
    · intro hf
      exact ⟨a, t, rfl, hf⟩
    · rintro ⟨a', t', heq, hf⟩
      cases heq
      exact hf
  | error e t => simp

theorem bind_error {x : EStateM ε σ α} {f : α → EStateM ε σ β} {s u : σ} {e : ε} :
    (x >>= f) s = .error e u ↔
      x s = .error e u ∨ ∃ a t, x s = .ok a t ∧ f a t = .error e u := by
  change EStateM.bind x f s = _ ↔ _
  unfold EStateM.bind
  cases h : x s with
  | ok a t =>
    constructor
    · intro hf
      exact .inr ⟨a, t, rfl, hf⟩
    · rintro (heq | ⟨a', t', heq, hf⟩)
      · nomatch heq
      · cases heq
        exact hf
  | error e' t => simp

theorem result_ok {a b : α} {s t : σ} :
    (EStateM.Result.ok a s : EStateM.Result ε σ α) = .ok b t ↔ b = a ∧ t = s := by
  simp [eq_comm]

theorem pure_ok {a b : α} {s t : σ} :
    (pure a : EStateM ε σ α) s = .ok b t ↔ b = a ∧ t = s :=
  result_ok

theorem throw_ok {e : ε} {b : α} {s t : σ} :
    ¬ (throw e : EStateM ε σ α) s = .ok b t := by
  intro h
  cases h

theorem get_ok {a s t : σ} : (get : EStateM ε σ σ) s = .ok a t ↔ a = s ∧ t = s :=
  result_ok

theorem set_ok {a s t : σ} {u : PUnit} : (set a : EStateM ε σ PUnit) s = .ok u t ↔ t = a := by
  change EStateM.Result.ok PUnit.unit a = _ ↔ _
  simp [eq_comm]

end MipsCompiler
