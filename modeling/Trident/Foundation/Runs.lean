import Trident.Foundation.StateResult

/-! Machines that go from one position to the next, and runs of them that are
cut short after a number of steps. -/

set_option autoImplicit false

namespace Foundation

universe u

/-- What a step leads to. -/
inductive Next (α β : Type u) where
  | more (position : α)
  | done (result : β)
  deriving DecidableEq, Repr

section

variable {ε τ α β : Type u} (step : α → EStateM ε τ (Next α β))

/-- A run of at most `limit` steps, which gives `none` if it takes more. -/
def runSteps : Nat → α → EStateM ε τ (Option β)
  | 0, _ => return none
  | limit + 1, position => do
      match ← step position with
      | .more next => runSteps limit next
      | .done result => return some result

/-- A run that did not end. -/
def Cut (result : EStateM.Result ε τ (Option β)) : Prop := ∃ state, result = .ok none state

/-- `Path step n a s b t`: from `a` and `s`, `n` steps lead to `b` and `t`. -/
inductive Path : Nat → α → τ → α → τ → Prop where
  | refl {a s} : Path 0 a s a s
  | cons {n a s b t c u} : step a s = .ok (.more b) t → Path n b t c u → Path (n + 1) a s c u

/-- The machine ends its run from `a` and `s` with a result or an error. -/
def Ends (a : α) (s : τ) : EStateM.Result ε τ β → Prop
  | .ok value final => ∃ n b t, Path step n a s b t ∧ step b t = .ok (.done value) final
  | .error error final => ∃ n b t, Path step n a s b t ∧ step b t = .error error final

variable {step} {n m : Nat} {a b c : α} {s t u : τ}

namespace Path

theorem one (stepped : step a s = .ok (.more b) t) : Path step 1 a s b t := .cons stepped .refl

theorem trans (first : Path step n a s b t) (second : Path step m b t c u) :
    Path step (n + m) a s c u := by
  induction first with
  | refl => rwa [Nat.zero_add]
  | @cons n _ _ _ _ _ _ stepped _ ih =>
      rw [show n + 1 + m = n + m + 1 by omega]
      exact .cons stepped (ih second)

theorem runSteps (path : Path step n a s b t) (limit : Nat) :
    runSteps step (n + limit) a s = Foundation.runSteps step limit b t := by
  induction path with
  | refl => rw [Nat.zero_add]
  | @cons n _ _ _ _ _ _ stepped _ ih =>
      rw [show n + 1 + limit = n + limit + 1 by omega, Foundation.runSteps,
        bind_run_of_ok stepped]
      exact ih

theorem cut (path : Path step n a s b t) : Cut (Foundation.runSteps step n a s) := by
  have run := path.runSteps 0
  exact ⟨t, run⟩

end Path

/-- A run that has ended does not change when it is given more steps. -/
theorem runSteps_add (ended : ¬ Cut (runSteps step n a s)) (more : Nat) :
    runSteps step (n + more) a s = runSteps step n a s := by
  induction n generalizing a s with
  | zero => exact absurd ⟨s, rfl⟩ ended
  | succ n ih =>
      rw [show n + 1 + more = n + more + 1 by omega]
      rw [runSteps] at ended ⊢
      rw [bind_run] at ended
      rw [runSteps, bind_run, bind_run]
      cases stepped : step a s with
      | error => rfl
      | ok next t =>
          rw [stepped] at ended
          cases next with
          | done => rfl
          | more b => exact ih ended

theorem runSteps_unique (first : ¬ Cut (runSteps step n a s)) (second : ¬ Cut (runSteps step m a s)) :
    runSteps step n a s = runSteps step m a s := by
  rw [← runSteps_add first m, ← runSteps_add second n, Nat.add_comm]

/-- Runs cut short are shorter than those that end. -/
theorem cut_of_le (cut : Cut (runSteps step n a s)) (le : m ≤ n) : Cut (runSteps step m a s) := by
  by_contra ended
  obtain ⟨more, rfl⟩ := Nat.exists_eq_add_of_le le
  rw [runSteps_add ended] at cut
  exact ended cut

theorem Ends.of_path {result : EStateM.Result ε τ β} (path : Path step n a s b t)
    (ends : Ends step b t result) : Ends step a s result := by
  cases result with
  | ok value final =>
      obtain ⟨m, c, u, rest, stepped⟩ := ends
      exact ⟨n + m, c, u, path.trans rest, stepped⟩
  | error error final =>
      obtain ⟨m, c, u, rest, stepped⟩ := ends
      exact ⟨n + m, c, u, path.trans rest, stepped⟩

/-- Steps that are taken anyway can be left out of a run that ends. -/
theorem Ends.after_path {result : EStateM.Result ε τ β} (path : Path step n a s b t)
    (ends : Ends step a s result) : Ends step b t result := by
  induction path with
  | refl => exact ends
  | @cons n a s b t c u stepped _ ih =>
      refine ih ?_
      cases result with
      | ok value final =>
          obtain ⟨_, d, v, path, last⟩ := ends
          cases path with
          | refl =>
              rw [stepped] at last
              cases last
          | cons first rest =>
              rw [stepped] at first
              cases first
              exact ⟨_, d, v, rest, last⟩
      | error error final =>
          obtain ⟨_, d, v, path, last⟩ := ends
          cases path with
          | refl =>
              rw [stepped] at last
              cases last
          | cons first rest =>
              rw [stepped] at first
              cases first
              exact ⟨_, d, v, rest, last⟩

/-- A result, as a run that ended with it gives it. -/
def ended : EStateM.Result ε τ β → EStateM.Result ε τ (Option β)
  | .ok value final => .ok (some value) final
  | .error error final => .error error final

theorem not_cut_ended (result : EStateM.Result ε τ β) : ¬ Cut (ended result) := by
  rintro ⟨_, same⟩
  cases result <;> cases same

theorem Ends.run {result : EStateM.Result ε τ β} (ends : Ends step a s result) :
    ∃ limit, runSteps step limit a s = ended result := by
  cases result with
  | ok value final =>
      obtain ⟨n, b, t, path, stepped⟩ := ends
      refine ⟨n + 1, ?_⟩
      rw [path.runSteps, runSteps, bind_run_of_ok stepped]
      rfl
  | error error final =>
      obtain ⟨n, b, t, path, stepped⟩ := ends
      refine ⟨n + 1, ?_⟩
      rw [path.runSteps, runSteps, bind_run_of_error stepped]
      rfl

end

section Reached

variable {ε τ α β : Type u} {step : α → EStateM ε τ (Next α β)} {a b c : α} {s t u : τ}

/-- From `a` and `s`, some number of steps lead to `b` and `t`. -/
def Leads (step : α → EStateM ε τ (Next α β)) (a : α) (s : τ) (b : α) (t : τ) : Prop :=
  ∃ n, Path step n a s b t

namespace Leads

theorem refl (a : α) (s : τ) : Leads step a s a s := ⟨0, .refl⟩

theorem one (stepped : step a s = .ok (.more b) t) : Leads step a s b t := ⟨1, .one stepped⟩

theorem trans : Leads step a s b t → Leads step b t c u → Leads step a s c u
  | ⟨n, first⟩, ⟨m, second⟩ => ⟨n + m, first.trans second⟩

/-- A step is not taken in two ways, so one of two places lies on the way to the other. -/
theorem total (first : Leads step a s b t) (second : Leads step a s c u) :
    Leads step b t c u ∨ Leads step c u b t := by
  obtain ⟨n, first⟩ := first
  induction first with
  | refl => exact .inl second
  | @cons n a s b t _ _ stepped rest ih =>
      obtain ⟨m, second⟩ := second
      cases second with
      | refl => exact .inr ⟨n + 1, .cons stepped rest⟩
      | cons stepped' rest' =>
          cases stepped.symm.trans stepped'
          exact ih ⟨_, rest'⟩

end Leads

end Reached

section Refinement

variable {ε τ σ α β γ δ : Type u} {spec : α → EStateM ε τ (Next α β)}
  {impl : γ → EStateM ε σ (Next γ δ)} {good : τ → Prop} {excused : ε → Prop}
  {related : α → τ → γ → σ → Prop} {returns : β → τ → δ → σ → Prop}

/-- `impl` follows a step of `spec` that gave this result, if it is `good`, with at
least one step; errors that are excused put no condition on it. -/
def Followed (impl : γ → EStateM ε σ (Next γ δ)) (good : τ → Prop) (excused : ε → Prop)
    (related : α → τ → γ → σ → Prop) (returns : β → τ → δ → σ → Prop) (c : γ) (u : σ) :
    EStateM.Result ε τ (Next α β) → Prop
  | .ok (.more b) t => good t → ∃ n d v, Path impl (n + 1) c u d v ∧ related b t d v
  | .ok (.done value) t => good t → ∃ result v, Ends impl c u (.ok result v) ∧
      returns value t result v
  | .error error t => good t → excused error ∨ ∃ v, Ends impl c u (.error error v)

/-- Every step of `spec` from related states is followed by `impl`. -/
def Refines (spec : α → EStateM ε τ (Next α β)) (impl : γ → EStateM ε σ (Next γ δ))
    (good : τ → Prop) (excused : ε → Prop) (related : α → τ → γ → σ → Prop)
    (returns : β → τ → δ → σ → Prop) : Prop :=
  ∀ a s c u, related a s c u → Followed impl good excused related returns c u (spec a s)

/-- The steps of a run are good when its last one is. -/
def Earlier (spec : α → EStateM ε τ (Next α β)) (good : τ → Prop) : Prop :=
  ∀ a s b t, spec a s = .ok (.more b) t → good t → good s

theorem Path.earlier {n : Nat} {a b : α} {s t : τ} (earlier : Earlier spec good)
    (path : Path spec n a s b t) (last : good t) : good s := by
  induction path with
  | refl => exact last
  | cons stepped _ ih => exact earlier _ _ _ _ stepped (ih last)

namespace Refines

variable {n : Nat} {a b : α} {s t : τ} {c : γ} {u : σ}

theorem path (refines : Refines spec impl good excused related returns)
    (earlier : Earlier spec good) (path : Path spec n a s b t) (last : good t)
    (start : related a s c u) : ∃ m d v, n ≤ m ∧ Path impl m c u d v ∧ related b t d v := by
  induction path generalizing c u with
  | @refl a s => exact ⟨0, c, u, Nat.le_refl 0, .refl, start⟩
  | @cons n a s b t _ _ stepped rest ih =>
      have follows := refines a s c u start
      rw [stepped] at follows
      obtain ⟨first, d, v, followed, next⟩ := follows (rest.earlier earlier last)
      obtain ⟨more, d', v', le, rest, after⟩ := ih last next
      exact ⟨first + 1 + more, d', v', by omega, followed.trans rest, after⟩

/-- A run that ends is followed by one that ends the same way. -/
theorem ends_ok {value : β} {final : τ}
    (refines : Refines spec impl good excused related returns)
    (earlier : Earlier spec good) (last : ∀ b t, spec b t = .ok (.done value) final → good t)
    (ended : Ends spec a s (.ok value final)) (good_final : good final)
    (start : related a s c u) :
    ∃ result v, Ends impl c u (.ok result v) ∧ returns value final result v := by
  obtain ⟨n, b, t, path, stepped⟩ := ended
  obtain ⟨m, d, v, _, followed, related⟩ :=
    refines.path earlier path (last b t stepped) start
  have follows := refines b t d v related
  rw [stepped] at follows
  obtain ⟨result, v', ends, returned⟩ := follows good_final
  exact ⟨result, v', .of_path followed ends, returned⟩

theorem ends_error {error : ε} {final : τ}
    (refines : Refines spec impl good excused related returns)
    (earlier : Earlier spec good) (last : ∀ b t, spec b t = .error error final → good t)
    (ended : Ends spec a s (.error error final)) (good_final : good final)
    (start : related a s c u) : excused error ∨ ∃ v, Ends impl c u (.error error v) := by
  obtain ⟨n, b, t, path, stepped⟩ := ended
  obtain ⟨m, d, v, _, followed, related⟩ :=
    refines.path earlier path (last b t stepped) start
  have follows := refines b t d v related
  rw [stepped] at follows
  obtain excuse | ⟨v', ends⟩ := follows good_final
  · exact .inl excuse
  · exact .inr ⟨v', .of_path followed ends⟩

end Refines

end Refinement

end Foundation
