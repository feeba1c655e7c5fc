import Trident.Foundation.StateResult

/-! Assertions about computations with errors: from a state that satisfies the
precondition, a computation ends in one that satisfies the postcondition, or with
one of the errors that are allowed. `RunEnds` is the assertion about one run. -/

set_option autoImplicit false

namespace Foundation

universe u

variable {ε σ α β : Type u}

def Guarded (allowed : ε → Prop) (pre : σ → Prop) (action : EStateM ε σ α)
    (post : α → σ → Prop) : Prop :=
  ∀ state, pre state →
    match action state with
    | .ok value final => post value final
    | .error error _ => allowed error

namespace Guarded

variable {allowed : ε → Prop} {pre pre' : σ → Prop} {action : EStateM ε σ α}
  {post post' : α → σ → Prop}

theorem of_error {state final : σ} {error : ε} (guarded : Guarded allowed pre action post)
    (holds : pre state) (rejected : action state = .error error final) : allowed error := by
  have result := guarded state holds
  rwa [rejected] at result

theorem pure {value : α} (holds : ∀ state, pre state → post value state) :
    Guarded allowed pre (pure value) post := holds

theorem throw {error : ε} (holds : allowed error) :
    Guarded allowed pre (throw error : EStateM ε σ α) post := fun _ _ => holds

theorem modify {step : σ → σ} {post : PUnit → σ → Prop}
    (holds : ∀ state, pre state → post ⟨⟩ (step state)) :
    Guarded allowed pre (modify step) post := holds

theorem modifyGet {step : σ → α × σ}
    (holds : ∀ state, pre state → post (step state).1 (step state).2) :
    Guarded allowed pre (modifyGet step) post := holds

/-- Weakening. -/
theorem mono (guarded : Guarded allowed pre' action post') (first : ∀ state, pre state → pre' state)
    (second : ∀ value state, post' value state → post value state) :
    Guarded allowed pre action post := by
  intro state holds
  have result := guarded state (first state holds)
  cases run : action state with
  | ok value final =>
      rw [run] at result
      exact second value final result
  | error error final =>
      rw [run] at result
      exact result

theorem bind {middle : α → σ → Prop} {next : α → EStateM ε σ β} {post : β → σ → Prop}
    (first : Guarded allowed pre action middle)
    (second : ∀ value, Guarded allowed (middle value) (next value) post) :
    Guarded allowed pre (action >>= next) post := by
  intro state holds
  have result := first state holds
  rw [bind_run]
  cases run : action state with
  | ok value final =>
      rw [run] at result
      exact second value final result
  | error error final =>
      rw [run] at result
      exact result

/-- The next computation may use the state that is read. -/
theorem get {next : σ → EStateM ε σ β} {post : β → σ → Prop}
    (second : ∀ state, pre state → Guarded allowed (· = state) (next state) post) :
    Guarded allowed pre (MonadState.get >>= next) post :=
  fun state holds => second state holds state rfl

theorem discard {ε σ α : Type} {allowed : ε → Prop} {pre : σ → Prop} {action : EStateM ε σ α}
    {post : σ → Prop} (guarded : Guarded allowed pre action fun _ => post) :
    Guarded allowed pre (discard action) fun _ => post := by
  intro state holds
  have result := guarded state holds
  rw [discard_run]
  cases ended : action state <;> rw [ended] at result <;> exact result

end Guarded

/-- How the run from a state ends: with a value and a state, or with an error and a
state. -/
def RunEnds (post : α → σ → Prop) (failed : ε → σ → Prop) (action : EStateM ε σ α) (state : σ) :
    Prop :=
  match action state with
  | .ok value final => post value final
  | .error error final => failed error final

namespace RunEnds

variable {post post' : α → σ → Prop} {failed failed' : ε → σ → Prop} {action : EStateM ε σ α}
  {state final : σ}

theorem of_ok {value : α} (ends : RunEnds post failed action state)
    (accepted : action state = .ok value final) : post value final := by
  unfold RunEnds at ends
  rwa [accepted] at ends

theorem of_error {error : ε} (ends : RunEnds post failed action state)
    (rejected : action state = .error error final) : failed error final := by
  unfold RunEnds at ends
  rwa [rejected] at ends

theorem mono (ends : RunEnds post' failed' action state)
    (first : ∀ value final, post' value final → post value final)
    (second : ∀ error final, failed' error final → failed error final) :
    RunEnds post failed action state := by
  unfold RunEnds at ends ⊢
  cases run : action state with
  | ok value final =>
      rw [run] at ends
      exact first value final ends
  | error error final =>
      rw [run] at ends
      exact second error final ends

theorem bind {next : α → EStateM ε σ β} {post : β → σ → Prop} {middle : α → σ → Prop}
    (first : RunEnds middle failed action state)
    (second : ∀ value final, middle value final → RunEnds post failed (next value) final) :
    RunEnds post failed (action >>= next) state := by
  unfold RunEnds at first ⊢
  rw [bind_run]
  cases run : action state with
  | ok value final =>
      rw [run] at first
      exact second value final first
  | error error final =>
      rw [run] at first
      exact first

theorem discard {ε σ α : Type} {action : EStateM ε σ α} {post : PUnit → σ → Prop}
    {failed : ε → σ → Prop} {state : σ} (ends : RunEnds (fun _ => post ⟨⟩) failed action state) :
    RunEnds post failed (discard action) state := by
  unfold RunEnds at ends ⊢
  rw [discard_run]
  cases run : action state <;> rw [run] at ends <;> exact ends

end RunEnds

end Foundation
