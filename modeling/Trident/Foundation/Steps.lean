import Trident.Foundation.StateResult
import Mathlib.Order.Defs.Unbundled

/-! Relations between the state before and the state after a computation, which
hold however it ends. For a reflexive and transitive relation they follow from
the single operations. -/

set_option autoImplicit false

namespace Foundation

universe u

variable {ε σ α β : Type u}

/-- The state a computation ends in, with or without an error. -/
def endState : EStateM.Result ε σ α → σ
  | .ok _ state => state
  | .error _ state => state

def Steps (R : σ → σ → Prop) (action : EStateM ε σ α) : Prop :=
  ∀ state, R state (endState (action state))

namespace Steps

variable {R : σ → σ → Prop} {action : EStateM ε σ α}

theorem of_ok {state final : σ} {value : α} (steps : Steps R action)
    (accepted : action state = .ok value final) : R state final := by
  have step := steps state
  rwa [accepted] at step

theorem of_error {state final : σ} {error : ε} (steps : Steps R action)
    (rejected : action state = .error error final) : R state final := by
  have step := steps state
  rwa [rejected] at step

theorem modify {step : σ → σ} (related : ∀ state, R state (step state)) :
    Steps R (modify step : EStateM ε σ PUnit) := related

theorem modifyGet {step : σ → α × σ} (related : ∀ state, R state (step state).2) :
    Steps R (modifyGet step : EStateM ε σ α) := related

section

variable [Std.Refl R]

theorem pure (value : α) : Steps R (pure value : EStateM ε σ α) := fun state => Std.Refl.refl state

theorem get : Steps R (MonadState.get : EStateM ε σ σ) := fun state => Std.Refl.refl state

theorem throw (error : ε) : Steps R (throw error : EStateM ε σ α) :=
  fun state => Std.Refl.refl state

end

theorem bind [IsTrans σ R] {next : α → EStateM ε σ β} (first : Steps R action)
    (second : ∀ value, Steps R (next value)) : Steps R (action >>= next) := by
  intro state
  have step := first state
  rw [bind_run]
  cases result : action state with
  | ok value middle =>
      rw [result] at step
      exact IsTrans.trans _ _ _ step (second value middle)
  | error error final =>
      rw [result] at step
      exact step

theorem discard {ε σ α : Type} {R : σ → σ → Prop} {action : EStateM ε σ α}
    (steps : Steps R action) : Steps R (discard action) := by
  intro state
  have step := steps state
  rw [discard_run]
  cases result : action state <;> rw [result] at step <;> exact step

end Steps

end Foundation
