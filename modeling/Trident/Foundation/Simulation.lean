import Trident.Foundation.StateResult

/-! Simulation of one stateful computation by another. Each run of `spec` from
related states is followed by a run of `impl` that ends the same way; errors of
`spec` for which `excused` holds put no condition on `impl`. -/

set_option autoImplicit false

namespace Foundation

universe u

section

variable {ε σ τ α β γ δ : Type u}

def Simulates (excused : ε → Prop) (broken : σ → τ → Prop) (pre : σ → τ → Prop)
    (spec : EStateM ε σ α) (impl : EStateM ε τ β) (post : α → β → σ → τ → Prop) : Prop :=
  ∀ s t, pre s t →
    match spec s with
    | .ok a s' => ∃ b t', impl t = .ok b t' ∧ post a b s' t'
    | .error e s' => excused e ∨ ∃ t', impl t = .error e t' ∧ broken s' t'

variable {excused : ε → Prop} {broken pre : σ → τ → Prop}

namespace Simulates

variable {spec : EStateM ε σ α} {impl : EStateM ε τ β} {post : α → β → σ → τ → Prop}

theorem mono {pre' : σ → τ → Prop} {post' : α → β → σ → τ → Prop}
    (simulates : Simulates excused broken pre spec impl post)
    (weaker : ∀ s t, pre' s t → pre s t)
    (stronger : ∀ a b s t, post a b s t → post' a b s t) :
    Simulates excused broken pre' spec impl post' := by
  intro s t related
  have run := simulates s t (weaker s t related)
  cases result : spec s with
  | ok a s' =>
      rw [result] at run
      obtain ⟨b, t', followed, after⟩ := run
      exact ⟨b, t', followed, stronger _ _ _ _ after⟩
  | error e s' =>
      rw [result] at run
      exact run

theorem pure {a : α} {b : β} (related : ∀ s t, pre s t → post a b s t) :
    Simulates excused broken pre (pure a) (pure b) post :=
  fun s t before => ⟨b, t, rfl, related s t before⟩

theorem bind {next : α → EStateM ε σ γ} {next' : β → EStateM ε τ δ}
    {last : γ → δ → σ → τ → Prop}
    (first : Simulates excused broken pre spec impl post)
    (second : ∀ a b, Simulates excused broken (post a b) (next a) (next' b) last) :
    Simulates excused broken pre (spec >>= next) (impl >>= next') last := by
  intro s t related
  have run := first s t related
  cases result : spec s with
  | ok a s' =>
      rw [result] at run
      obtain ⟨b, t', followed, after⟩ := run
      rw [bind_run_of_ok result, bind_run_of_ok followed]
      exact second a b s' t' after
  | error e s' =>
      rw [result] at run
      rw [bind_run_of_error result]
      refine run.imp_right fun ⟨t', followed, after⟩ => ⟨t', ?_, after⟩
      rw [bind_run_of_error followed]

theorem throw {e : ε} (related : ∀ s t, pre s t → broken s t) :
    Simulates excused broken pre (throw e : EStateM ε σ α) (throw e : EStateM ε τ β) post :=
  fun s t before => .inr ⟨t, rfl, related s t before⟩

end Simulates

end

end Foundation
