import Mathlib.Logic.Function.Basic
import Mathlib.Tactic.Common

/-! Running computations of `EStateM`: the value of each operation at a state,
and the ways a sequence can succeed or fail. -/

set_option autoImplicit false

namespace Foundation

universe u

section

variable {ε σ α β : Type u}

@[simp] theorem pure_run (value : α) (state : σ) :
    (pure value : EStateM ε σ α) state = .ok value state := rfl

@[simp] theorem get_run (state : σ) :
    (get : EStateM ε σ σ) state = .ok state state := rfl

@[simp] theorem throw_run (error : ε) (state : σ) :
    (throw error : EStateM ε σ α) state = .error error state := rfl

theorem bind_run (first : EStateM ε σ α) (next : α → EStateM ε σ β) (state : σ) :
    (first >>= next) state =
      match first state with
      | .ok value state => next value state
      | .error error state => .error error state := rfl

theorem bind_run_of_ok {first : EStateM ε σ α} {next : α → EStateM ε σ β}
    {state middle : σ} {value : α} (accepted : first state = .ok value middle) :
    (first >>= next) state = next value middle := by
  rw [bind_run, accepted]

theorem bind_run_of_error {first : EStateM ε σ α} {next : α → EStateM ε σ β}
    {state middle : σ} {error : ε} (rejected : first state = .error error middle) :
    (first >>= next) state = .error error middle := by
  rw [bind_run, rejected]

theorem bind_eq_ok {first : EStateM ε σ α} {next : α → EStateM ε σ β}
    {state final : σ} {result : β} :
    (first >>= next) state = .ok result final ↔
      ∃ value middle, first state = .ok value middle ∧ next value middle = .ok result final := by
  rw [bind_run]
  cases first state <;> simp

theorem bind_eq_error {first : EStateM ε σ α} {next : α → EStateM ε σ β}
    {state final : σ} {error : ε} :
    (first >>= next) state = .error error final ↔
      first state = .error error final ∨
        ∃ value middle, first state = .ok value middle ∧
          next value middle = .error error final := by
  rw [bind_run]
  cases first state <;> simp

theorem map_eq_ok {first : EStateM ε σ α} {convert : α → β} {state final : σ} {result : β} :
    (convert <$> first) state = .ok result final ↔
      ∃ value, first state = .ok value final ∧ convert value = result := by
  change (EStateM.map convert first) state = _ ↔ _
  rw [EStateM.map]
  cases first state <;> simp [and_comm]

theorem map_run_of_ok {first : EStateM ε σ α} {convert : α → β} {state final : σ} {value : α}
    (accepted : first state = .ok value final) :
    (convert <$> first) state = .ok (convert value) final :=
  map_eq_ok.mpr ⟨value, accepted, rfl⟩

end

theorem except_bind_eq_ok {ε α β : Type u} {first : Except ε α} {next : α → Except ε β}
    {result : β} : (first >>= next) = .ok result ↔ ∃ value, first = .ok value ∧ next value = .ok result := by
  cases first <;> simp [bind, Except.bind]

section

variable {ε σ : Type}

@[simp] theorem modify_run (step : σ → σ) (state : σ) :
    (modify step : EStateM ε σ Unit) state = .ok () (step state) := rfl

theorem discard_run {α : Type} (first : EStateM ε σ α) (state : σ) :
    (discard first) state =
      match first state with
      | .ok _ final => .ok () final
      | .error error final => .error error final := by
  rw [Functor.discard]
  change (EStateM.map _ first) state = _
  rw [EStateM.map]
  cases first state <;> rfl

theorem discard_eq_ok {α : Type} {first : EStateM ε σ α} {state final : σ} {result : Unit} :
    (discard first) state = .ok result final ↔ ∃ value, first state = .ok value final := by
  rw [discard_run]
  cases first state <;> simp

end

/-- The computation returns from no state. -/
def Never {ε σ α : Type} (action : EStateM ε σ α) : Prop :=
  ∀ state value final, action state ≠ .ok value final

namespace Never

variable {ε σ α β : Type} {action : EStateM ε σ α} {next : α → EStateM ε σ β}

theorem first (never : Never action) : Never (action >>= next) := by
  intro state value final returned
  obtain ⟨value, middle, first, -⟩ := bind_eq_ok.mp returned
  exact never state value middle first

theorem second (never : ∀ value, Never (next value)) : Never (action >>= next) := by
  intro state value final returned
  obtain ⟨middle, state', -, second⟩ := bind_eq_ok.mp returned
  exact never middle state' value final second

end Never

end Foundation
