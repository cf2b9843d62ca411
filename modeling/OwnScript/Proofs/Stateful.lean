import Mathlib

/-!
Steps with a state and an error, applied to a state. A step of the heap and a step of the machine
are both of this form, and the equations here are all that their proofs use of it.
-/

namespace OwnScript.Stateful

variable {ε σ α β : Type}

theorem bind_apply (step : EStateM ε σ α) (next : α → EStateM ε σ β) (state : σ) :
    (step >>= next) state =
      match step state with
      | .ok value after => next value after
      | .error fault after => .error fault after := by
  change EStateM.bind step next state = _
  unfold EStateM.bind
  cases step state <;> rfl

@[simp] theorem pure_apply (value : α) (state : σ) :
    (pure value : EStateM ε σ α) state = .ok value state := rfl

@[simp] theorem map_apply (f : α → β) (step : EStateM ε σ α) (state : σ) :
    (f <$> step) state =
      match step state with
      | .ok value after => .ok (f value) after
      | .error fault after => .error fault after := by
  change EStateM.map f step state = _
  unfold EStateM.map
  cases step state <;> rfl

@[simp] theorem get_apply (state : σ) : (get : EStateM ε σ σ) state = .ok state state := rfl

@[simp] theorem set_apply (new state : σ) : (set new : EStateM ε σ PUnit) state = .ok ⟨⟩ new := rfl

@[simp] theorem modify_apply (f : σ → σ) (state : σ) :
    (modify f : EStateM ε σ PUnit) state = .ok ⟨⟩ (f state) := rfl

@[simp] theorem throw_apply (fault : ε) (state : σ) :
    (throw fault : EStateM ε σ α) state = .error fault state := rfl

theorem get_bind_apply (next : σ → EStateM ε σ α) (state : σ) :
    (get >>= next) state = next state state := rfl

/-- A sequence ends normally exactly when both of its parts do. -/
theorem bind_eq_ok {step : EStateM ε σ α} {next : α → EStateM ε σ β} {state after : σ} {result : β} :
    (step >>= next) state = .ok result after ↔
      ∃ value middle, step state = .ok value middle ∧ next value middle = .ok result after := by
  rw [bind_apply]
  cases step state <;> simp

end OwnScript.Stateful
