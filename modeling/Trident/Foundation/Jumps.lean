import Trident.Foundation.Runs

/-! Structured programs whose phrases can be left by a jump to a label, and the
machine code that follows them. A jump leaves all phrases around it; the program
is then entered again at the label. -/

set_option autoImplicit false

namespace Foundation

/-- How the execution of a phrase ends: it goes on behind the phrase, leaves the
program, goes to a label, or is cut short. `frame` is what is known of the
variables then. -/
inductive Exit (φ ν β : Type) where
  | done (frame : φ)
  | returned (value : β)
  | jump (name : ν) (frame : φ)
  | running

namespace Exit

variable {ε σ φ ν β : Type}

/-- `next` after `first`, if control gets there. -/
def andThen (first : EStateM ε σ (Exit φ ν β)) (next : φ → EStateM ε σ (Exit φ ν β)) :
    EStateM ε σ (Exit φ ν β) := do
  match ← first with
  | .done frame => next frame
  | exit => return exit

/-- A loop, cut short after `limit` iterations. -/
def loop (test : φ → EStateM ε σ Bool) (body : φ → EStateM ε σ (Exit φ ν β)) :
    Nat → φ → EStateM ε σ (Exit φ ν β)
  | 0, _ => return .running
  | limit + 1, frame => do
      if ← test frame then andThen (body frame) (loop test body limit)
      else return .done frame

/-- What follows a phrase that a program consists of: after a jump the program is
entered at the label, by `land`, until there were more than `limit` jumps. -/
def restart (land : ν → φ → EStateM ε σ (Exit φ ν β)) :
    Nat → Exit φ ν β → EStateM ε σ (Exit φ ν β)
  | 0, .jump _ _ => return .running
  | limit + 1, .jump name frame => do restart land limit (← land name frame)
  | _, exit => return exit

end Exit

section

variable {ε σ τ α β φ ν : Type} {step : α → EStateM ε τ (Next α β)} {view : τ → σ}
  {excused : ε → Prop} {jumps jumps' : ν → φ → α → τ → Prop} {limit n : Nat} {a b : α} {s t : τ}
  {exits exits' : φ → α → τ → Prop} {result : EStateM.Result ε σ (Exit φ ν β)}

/-- From `a` and `s`, the machine does what led to the exit of a phrase: it gets to
a position for which `exits` holds, ends with the value returned, or gets to where
`jumps` says that the label is. It takes at least `limit` steps if the phrase was
cut short. Errors that are excused put no condition on it. -/
def Performs (step : α → EStateM ε τ (Next α β)) (view : τ → σ) (excused : ε → Prop)
    (jumps : ν → φ → α → τ → Prop) (limit : Nat) (a : α) (s : τ) (exits : φ → α → τ → Prop) :
    EStateM.Result ε σ (Exit φ ν β) → Prop
  | .ok (.done frame) u => ∃ n b t, Path step n a s b t ∧ view t = u ∧ exits frame b t
  | .ok (.returned value) u => ∃ t, Ends step a s (.ok value t) ∧ view t = u
  | .ok (.jump name frame) u => ∃ n b t, Path step n a s b t ∧ view t = u ∧ jumps name frame b t
  | .ok .running _ => ∃ n b t, limit ≤ n ∧ Path step n a s b t
  | .error error u => excused error ∨ ∃ t, Ends step a s (.error error t) ∧ view t = u

namespace Performs

theorem mono {less : Nat} (performs : Performs step view excused jumps limit a s exits result)
    (le : less ≤ limit) (weaker : ∀ frame b t, exits frame b t → exits' frame b t) :
    Performs step view excused jumps less a s exits' result := by
  cases result with
  | ok exit u =>
      cases exit with
      | done frame =>
          obtain ⟨n, b, t, path, same, holds⟩ := performs
          exact ⟨n, b, t, path, same, weaker frame b t holds⟩
      | returned value => exact performs
      | jump name frame => exact performs
      | running =>
          obtain ⟨n, b, t, long, path⟩ := performs
          exact ⟨n, b, t, Nat.le_trans le long, path⟩
  | error error u => exact performs

theorem of_path (path : Path step n a s b t)
    (performs : Performs step view excused jumps limit b t exits result) :
    Performs step view excused jumps (n + limit) a s exits result := by
  cases result with
  | ok exit u =>
      cases exit with
      | done frame =>
          obtain ⟨m, c, v, later, same, holds⟩ := performs
          exact ⟨n + m, c, v, path.trans later, same, holds⟩
      | returned value =>
          obtain ⟨v, ends, same⟩ := performs
          exact ⟨v, .of_path path ends, same⟩
      | jump name frame =>
          obtain ⟨m, c, v, later, same, holds⟩ := performs
          exact ⟨n + m, c, v, path.trans later, same, holds⟩
      | running =>
          obtain ⟨m, c, v, long, later⟩ := performs
          exact ⟨n + m, c, v, Nat.add_le_add_left long n, path.trans later⟩
  | error error u =>
      refine performs.imp_right fun ⟨v, ends, same⟩ => ⟨v, .of_path path ends, same⟩

theorem after_path (path : Path step n a s b t)
    (performs : Performs step view excused jumps limit b t exits result) :
    Performs step view excused jumps limit a s exits result :=
  (of_path path performs).mono (Nat.le_add_left limit n) fun _ _ _ holds => holds

/-- Steps that the machine takes behind the phrase. -/
theorem path_after (performs : Performs step view excused jumps limit a s exits result)
    (onward : ∀ frame b t, exits frame b t →
      ∃ n c v, Path step n b t c v ∧ view v = view t ∧ exits' frame c v) :
    Performs step view excused jumps limit a s exits' result := by
  cases result with
  | ok exit u =>
      cases exit with
      | done frame =>
          obtain ⟨m, b, t, path, same, holds⟩ := performs
          obtain ⟨n, c, v, later, kept, holds⟩ := onward frame b t holds
          exact ⟨m + n, c, v, path.trans later, kept.trans same, holds⟩
      | returned value => exact performs
      | jump name frame => exact performs
      | running => exact performs
  | error error u => exact performs

theorem andThen {first : EStateM ε σ (Exit φ ν β)} {next : φ → EStateM ε σ (Exit φ ν β)} {u : σ}
    (performs : Performs step view excused jumps limit a s exits (first u))
    (later : ∀ frame b t, exits frame b t →
      Performs step view excused jumps limit b t exits' (next frame (view t))) :
    Performs step view excused jumps limit a s exits' (Exit.andThen first next u) := by
  cases ran : first u with
  | ok exit u' =>
      rw [ran] at performs
      rw [Exit.andThen, bind_run_of_ok ran]
      cases exit with
      | done frame =>
          obtain ⟨n, b, t, path, rfl, holds⟩ := performs
          exact after_path path (later frame b t holds)
      | returned value => exact performs
      | jump name frame => exact performs
      | running => exact performs
  | error error u' =>
      rw [ran] at performs
      rw [Exit.andThen, bind_run_of_error ran]
      exact performs

/-- What a loop does, from what one turn of it does. -/
theorem loop (total : Nat) (inv : φ → τ → Prop) {test : φ → EStateM ε σ Bool}
    {body : φ → EStateM ε σ (Exit φ ν β)}
    (turn : ∀ (next : φ → EStateM ε σ (Exit φ ν β)) (limit : Nat), limit ≤ total →
      (∀ frame s, inv frame s →
        Performs step view excused jumps limit a s exits (next frame (view s))) →
      ∀ frame s, inv frame s → Performs step view excused jumps (1 + limit) a s exits
        ((test frame >>= fun holds =>
          if holds then Exit.andThen (body frame) next else return .done frame) (view s))) :
    ∀ limit ≤ total, ∀ frame s, inv frame s →
      Performs step view excused jumps limit a s exits (Exit.loop test body limit frame (view s)) := by
  intro limit
  induction limit with
  | zero => exact fun _ frame s _ => ⟨0, a, s, Nat.le_refl 0, .refl⟩
  | succ limit ih =>
      intro le frame s holds
      have small : limit ≤ total := Nat.le_of_succ_le le
      have next := turn (Exit.loop test body limit) limit small (ih small) frame s holds
      rw [Nat.add_comm] at next
      exact next

/-- A program is followed if it is followed up to its first jump and from each of
its labels on, where the machine takes a step. -/
theorem restart {land : ν → φ → EStateM ε σ (Exit φ ν β)} {total : Nat}
    (landed : ∀ name frame b t, jumps name frame b t → ∃ c v, Path step 1 b t c v ∧
      Performs step view excused jumps total c v exits (land name frame (view t)))
    (le : limit ≤ total) {run : EStateM ε σ (Exit φ ν β)} {u : σ}
    (performs : Performs step view excused jumps total a s exits (run u)) :
    Performs step view excused jumps' limit a s exits ((run >>= Exit.restart land limit) u) := by
  induction limit generalizing run u a s with
  | zero =>
      cases ran : run u with
      | ok exit u' =>
          rw [ran] at performs
          rw [bind_run_of_ok ran]
          cases exit with
          | jump name frame => exact ⟨0, a, s, Nat.le_refl 0, .refl⟩
          | running =>
              obtain ⟨n, b, t, _, path⟩ := performs
              exact ⟨n, b, t, Nat.zero_le n, path⟩
          | done | returned => exact performs
      | error error u' =>
          rw [ran] at performs
          rw [bind_run_of_error ran]
          exact performs
  | succ limit ih =>
      cases ran : run u with
      | ok exit u' =>
          rw [ran] at performs
          rw [bind_run_of_ok ran]
          cases exit with
          | jump name frame =>
              obtain ⟨n, b, t, path, rfl, holds⟩ := performs
              obtain ⟨c, v, entered, performs⟩ := landed name frame b t holds
              have again := ih (Nat.le_of_succ_le le) performs
              refine (of_path (path.trans entered) again).mono ?_ fun _ _ _ holds => holds
              omega
          | running =>
              obtain ⟨n, b, t, long, path⟩ := performs
              exact ⟨n, b, t, Nat.le_trans le long, path⟩
          | done | returned => exact performs
      | error error u' =>
          rw [ran] at performs
          rw [bind_run_of_error ran]
          exact performs

end Performs

end

end Foundation
