import Trident.Foundation.Guarded
import Mathlib.Logic.Relation

/-! Procedures that call each other. The text of a procedure is a tree of its own steps
and of calls, so that the calls a run makes can be spoken of; a contract says what every
procedure may rely on and what it gives, and a rank that falls from call to call bounds
the depth. -/

set_option autoImplicit false

namespace Foundation

variable {ε σ Proc α β : Type} {Result : Proc → Type}

/-- The text of a procedure: what is done next depends on the values of steps and calls. -/
inductive ProcBody (ε σ : Type) {Proc : Type} (Result : Proc → Type) (α : Type) : Type 1 where
  | pure (value : α)
  | step {β : Type} (action : EStateM ε σ β) (next : β → ProcBody ε σ Result α)
  | call (proc : Proc) (next : Result proc → ProcBody ε σ Result α)

namespace ProcBody

protected def bind : ProcBody ε σ Result α → (α → ProcBody ε σ Result β) → ProcBody ε σ Result β
  | .pure value, last => last value
  | .step action next, last => .step action fun value => (next value).bind last
  | .call proc next, last => .call proc fun value => (next value).bind last

instance : Monad (ProcBody ε σ Result) where
  pure := .pure
  bind := ProcBody.bind

instance : MonadLift (EStateM ε σ) (ProcBody ε σ Result) where
  monadLift action := .step action .pure

/-- The run of a text, with the runs of the procedures it calls. -/
def run (exec : (proc : Proc) → EStateM ε σ (Result proc)) : ProcBody ε σ Result α → EStateM ε σ α
  | .pure value => Pure.pure value
  | .step action next => action >>= fun value => (next value).run exec
  | .call proc next => exec proc >>= fun value => (next value).run exec

/-- The run of the text from a state calls the procedure `callee` in the state `entry`. -/
def Reaches (exec : (proc : Proc) → EStateM ε σ (Result proc)) (callee : Proc) (entry : σ) :
    ProcBody ε σ Result α → σ → Prop
  | .pure _, _ => False
  | .step action next, state =>
      ∃ value middle, action state = .ok value middle ∧ (next value).Reaches exec callee entry middle
  | .call proc next, state =>
      (proc = callee ∧ state = entry) ∨
        ∃ value middle, exec proc state = .ok value middle ∧
          (next value).Reaches exec callee entry middle

section Run

variable {exec : (proc : Proc) → EStateM ε σ (Result proc)} {text : ProcBody ε σ Result α}
  {state final entry : σ} {callee : Proc} {error : ε}

@[simp] theorem run_pure (value : α) :
    (Pure.pure value : ProcBody ε σ Result α).run exec = Pure.pure value := rfl

@[simp] theorem run_lift (action : EStateM ε σ α) :
    (liftM action : ProcBody ε σ Result α).run exec = action := bind_pure action

@[simp] theorem run_get : (MonadState.get : ProcBody ε σ Result σ).run exec = MonadState.get :=
  bind_pure _

@[simp] theorem run_modify (change : σ → σ) :
    (modify change : ProcBody ε σ Result PUnit).run exec = modify change := bind_pure _

@[simp] theorem run_call (proc : Proc) :
    (ProcBody.call proc Pure.pure : ProcBody ε σ Result (Result proc)).run exec = exec proc :=
  bind_pure (exec proc)

@[simp] theorem run_bind (first : ProcBody ε σ Result α) (last : α → ProcBody ε σ Result β) :
    (first >>= last).run exec = first.run exec >>= fun value => (last value).run exec := by
  change (first.bind last).run exec = _
  induction first with
  | pure value => rw [run, pure_bind, ProcBody.bind]
  | step action next ih => simp only [ProcBody.bind, run, bind_assoc, ih]
  | call proc next ih => simp only [ProcBody.bind, run, bind_assoc, ih]

@[simp] theorem run_ite (condition : Prop) [Decidable condition] (yes no : ProcBody ε σ Result α) :
    (if condition then yes else no).run exec =
      if condition then yes.run exec else no.run exec := by
  split <;> rfl

/-- A procedure that fails makes its caller fail. -/
theorem Reaches.failed (reaches : text.Reaches exec callee entry state)
    (failed : exec callee entry = .error error final) : text.run exec state = .error error final := by
  induction text generalizing state with
  | pure value => exact reaches.elim
  | step action next ih =>
      obtain ⟨value, middle, stepped, later⟩ := reaches
      rw [run, bind_run_of_ok stepped]
      exact ih value later
  | call proc next ih =>
      rcases reaches with ⟨rfl, rfl⟩ | ⟨value, middle, returned, later⟩
      · exact bind_run_of_error failed
      · rw [run, bind_run_of_ok returned]
        exact ih value later

end Run

end ProcBody

/-- What holds when a procedure is called, what it gives, how it may fail, which calls it
may make, and the errors its own steps may raise. -/
structure Contract (ε σ : Type) {Proc : Type} (Result : Proc → Type) where
  pre : Proc → σ → Prop
  post : (proc : Proc) → σ → Result proc → σ → Prop
  failed : Proc → σ → ε → σ → Prop
  calls : Proc → σ → Proc → σ → Prop
  raises : Proc → ε → Prop
  rank : Proc → σ → Nat

namespace ProcBody

/-- The run of a text from a state, with procedures that keep the contract, ends as
`post` and `failed` say, makes only the calls `calls` and raises only the errors
`raises`. -/
def Meets (contract : Contract ε σ Result) (calls : Proc → σ → Prop) (raises : ε → Prop)
    (post : α → σ → Prop) (failed : ε → σ → Prop) : ProcBody ε σ Result α → σ → Prop
  | .pure value, state => post value state
  | .step action next, state =>
      RunEnds (fun value final => (next value).Meets contract calls raises post failed final)
        (fun error final => raises error ∧ failed error final) action state
  | .call proc next, state =>
      contract.pre proc state ∧ calls proc state ∧
        (∀ value final, contract.post proc state value final →
          (next value).Meets contract calls raises post failed final) ∧
        ∀ error final, contract.failed proc state error final → failed error final

variable {contract : Contract ε σ Result} {calls calls' : Proc → σ → Prop} {raises : ε → Prop}
  {post post' : α → σ → Prop} {failed failed' : ε → σ → Prop} {text : ProcBody ε σ Result α} {state : σ}

theorem Meets.mono (meets : text.Meets contract calls raises post failed state)
    (made : ∀ proc state, calls proc state → calls' proc state)
    (ended : ∀ value final, post value final → post' value final)
    (stopped : ∀ error final, failed error final → failed' error final) :
    text.Meets contract calls' raises post' failed' state := by
  induction text generalizing state with
  | pure value => exact ended value state meets
  | step action next ih =>
      apply RunEnds.mono meets
      · intro value final later
        exact ih value later
      · intro error final ⟨raised, failed⟩
        exact ⟨raised, stopped error final failed⟩
  | call proc next ih =>
      obtain ⟨ready, made', returned, refused⟩ := meets
      refine ⟨ready, made proc state made', ?_, ?_⟩
      · intro value final given
        exact ih value (returned value final given)
      · intro error final refusal
        exact stopped error final (refused error final refusal)

/-- A step of the text, and what follows it. -/
theorem Meets.step {action : EStateM ε σ β} {next : β → ProcBody ε σ Result α}
    (ends : RunEnds (fun value final => (next value).Meets contract calls raises post failed final)
      (fun error final => raises error ∧ failed error final) action state) :
    (liftM action >>= next).Meets contract calls raises post failed state := ends

theorem Meets.bind {middle : α → σ → Prop} {last : α → ProcBody ε σ Result β} {post : β → σ → Prop}
    (first : text.Meets contract calls raises middle failed state)
    (second : ∀ value final, middle value final →
      (last value).Meets contract calls raises post failed final) :
    (text >>= last).Meets contract calls raises post failed state := by
  induction text generalizing state with
  | pure value => exact second value state first
  | step action next ih =>
      apply RunEnds.mono first
      · intro value final later
        exact ih value later
      · exact fun _ _ stopped => stopped
  | call proc next ih =>
      obtain ⟨ready, made, returned, refused⟩ := first
      refine ⟨ready, made, ?_, refused⟩
      intro value final given
      exact ih value (returned value final given)

section Sound

variable {exec : (proc : Proc) → EStateM ε σ (Result proc)}
  (sound : ∀ proc state, contract.pre proc state → calls proc state →
    RunEnds (contract.post proc state) (contract.failed proc state) (exec proc) state)
include sound

theorem Meets.run_ends (meets : text.Meets contract calls raises post failed state) :
    RunEnds post failed (text.run exec) state := by
  induction text generalizing state with
  | pure value => exact meets
  | step action next ih =>
      apply RunEnds.bind (RunEnds.mono meets (fun _ _ later => later) fun _ _ stopped => stopped.2)
      intro value final later
      exact ih value later
  | call proc next ih =>
      obtain ⟨ready, made, returned, refused⟩ := meets
      apply RunEnds.bind (RunEnds.mono (sound proc state ready made) returned refused)
      intro value final later
      exact ih value later

theorem Meets.reaches {callee : Proc} {entry : σ}
    (meets : text.Meets contract calls raises post failed state)
    (reaches : text.Reaches exec callee entry state) :
    contract.pre callee entry ∧ calls callee entry := by
  induction text generalizing state with
  | pure value => exact reaches.elim
  | step action next ih =>
      obtain ⟨value, middle, stepped, later⟩ := reaches
      exact ih value (RunEnds.of_ok meets stepped) later
  | call proc next ih =>
      obtain ⟨ready, made, returned, -⟩ := meets
      rcases reaches with ⟨rfl, rfl⟩ | ⟨value, middle, accepted, later⟩
      · exact ⟨ready, made⟩
      · exact ih value (returned value middle ((sound proc state ready made).of_ok accepted)) later

/-- An error comes from the text itself or from a procedure it calls. -/
theorem Meets.source {error : ε} {final : σ}
    (meets : text.Meets contract calls raises post failed state)
    (stopped : text.run exec state = .error error final) :
    raises error ∨ ∃ callee entry, text.Reaches exec callee entry state ∧
      exec callee entry = .error error final := by
  induction text generalizing state with
  | pure value => cases stopped
  | step action next ih =>
      rcases bind_eq_error.mp stopped with raised | ⟨value, middle, stepped, later⟩
      · exact .inl (RunEnds.of_error meets raised).1
      · apply (ih value (RunEnds.of_ok meets stepped) later).imp_right
        intro ⟨callee, entry, reaches, refused⟩
        exact ⟨callee, entry, ⟨value, middle, stepped, reaches⟩, refused⟩
  | call proc next ih =>
      obtain ⟨ready, made, returned, -⟩ := meets
      rcases bind_eq_error.mp stopped with refused | ⟨value, middle, accepted, later⟩
      · exact .inr ⟨proc, state, .inl ⟨rfl, rfl⟩, refused⟩
      · have given := (sound proc state ready made).of_ok accepted
        apply (ih value (returned value middle given) later).imp_right
        intro ⟨callee, entry, reaches, refused⟩
        exact ⟨callee, entry, .inr ⟨value, middle, accepted, reaches⟩, refused⟩

end Sound

end ProcBody

/-- Procedures with their texts. At each depth a procedure runs its text, and the
procedures it calls run one level below. -/
structure Procedures (ε σ : Type) {Proc : Type} (Result : Proc → Type) where
  text : (proc : Proc) → ProcBody ε σ Result (Result proc)
  exec : Nat → (proc : Proc) → EStateM ε σ (Result proc)
  exec_succ : ∀ depth proc, exec (depth + 1) proc = (text proc).run (exec depth)

/-- A procedure at the moment it is called. -/
structure ProcCall (Proc σ : Type) where
  depth : Nat
  proc : Proc
  state : σ

/-- The call may rely on the contract, and its depth is enough for its rank. -/
structure ProcCall.Admitted (contract : Contract ε σ Result) (call : ProcCall Proc σ) :
    Prop where
  pre : contract.pre call.proc call.state
  rank : contract.rank call.proc call.state < call.depth

namespace Procedures

variable (procedures : Procedures ε σ Result)

def Calls (caller callee : ProcCall Proc σ) : Prop :=
  caller.depth = callee.depth + 1 ∧
    (procedures.text caller.proc).Reaches (procedures.exec callee.depth) callee.proc callee.state
      caller.state

/-- Every text meets what the contract says of its procedure. -/
structure Keep (contract : Contract ε σ Result) : Prop where
  falls : ∀ {proc state callee entry}, contract.calls proc state callee entry →
    contract.rank callee entry < contract.rank proc state
  meets : ∀ proc state, contract.pre proc state →
    (procedures.text proc).Meets contract (contract.calls proc state) (contract.raises proc)
      (contract.post proc state) (contract.failed proc state) state

variable {procedures} {contract : Contract ε σ Result} {caller callee last : ProcCall Proc σ}

/-- The error that stops the callee stops the caller. -/
theorem Calls.failed {error : ε} {final : σ} (called : procedures.Calls caller callee)
    (failed : procedures.exec callee.depth callee.proc callee.state = .error error final) :
    procedures.exec caller.depth caller.proc caller.state = .error error final := by
  obtain ⟨deeper, reaches⟩ := called
  rw [deeper, procedures.exec_succ]
  exact reaches.failed failed

namespace Keep

variable (keep : procedures.Keep contract)
include keep

theorem run_ends {depth : Nat} {proc : Proc} {state : σ} (pre : contract.pre proc state)
    (enough : contract.rank proc state < depth) :
    RunEnds (contract.post proc state) (contract.failed proc state) (procedures.exec depth proc)
      state := by
  induction depth generalizing proc state with
  | zero => contradiction
  | succ depth ih =>
      rw [procedures.exec_succ]
      apply (keep.meets proc state pre).run_ends
      intro callee entry ready made
      exact ih ready (Nat.lt_of_lt_of_le (keep.falls made) (Nat.le_of_lt_succ enough))

theorem calls (ready : ProcCall.Admitted contract caller) (called : procedures.Calls caller callee) :
    ProcCall.Admitted contract callee ∧
      contract.calls caller.proc caller.state callee.proc callee.state := by
  obtain ⟨deeper, reaches⟩ := called
  have enough : ∀ proc state, contract.calls caller.proc caller.state proc state →
      contract.rank proc state < callee.depth := by
    intro proc state made
    have falls := keep.falls made
    have rank := ready.rank
    omega
  obtain ⟨pre, made⟩ := (keep.meets caller.proc caller.state ready.pre).reaches
    (fun proc state pre made => keep.run_ends pre (enough proc state made)) reaches
  exact ⟨⟨pre, enough _ _ made⟩, made⟩

theorem reached (ready : ProcCall.Admitted contract caller)
    (path : Relation.ReflTransGen procedures.Calls caller callee) :
    ProcCall.Admitted contract callee := by
  induction path with
  | refl => exact ready
  | tail _ called ih => exact (keep.calls ih called).1

/-- What holds from call to call holds along every chain of calls. -/
theorem chain (trans : ∀ {proc state proc' state' proc'' state''},
      contract.calls proc state proc' state' → contract.calls proc' state' proc'' state'' →
      contract.calls proc state proc'' state'')
    (ready : ProcCall.Admitted contract caller)
    (path : Relation.TransGen procedures.Calls caller callee) :
    contract.calls caller.proc caller.state callee.proc callee.state := by
  induction path with
  | single called => exact (keep.calls ready called).2
  | tail path called ih =>
      exact trans ih (keep.calls (keep.reached ready path.to_reflTransGen) called).2

/-- An error is raised by the own step of a procedure that is reached. -/
theorem source {error : ε} {final : σ} (ready : ProcCall.Admitted contract caller)
    (stopped : procedures.exec caller.depth caller.proc caller.state = .error error final) :
    ∃ culprit, Relation.ReflTransGen procedures.Calls caller culprit ∧
      contract.raises culprit.proc error := by
  obtain ⟨depth, proc, state⟩ := caller
  induction depth generalizing proc state with
  | zero => exact absurd ready.rank (Nat.not_lt_zero _)
  | succ depth ih =>
      have sound : ∀ callee entry, contract.pre callee entry →
          contract.calls proc state callee entry →
          RunEnds (contract.post callee entry) (contract.failed callee entry)
            (procedures.exec depth callee) entry := by
        intro callee entry pre made
        have rank := ready.rank
        exact keep.run_ends pre (Nat.lt_of_lt_of_le (keep.falls made) (Nat.le_of_lt_succ rank))
      have refused := stopped
      rw [procedures.exec_succ] at refused
      rcases (keep.meets proc state ready.pre).source sound refused with
        raised | ⟨callee, entry, reaches, failed⟩
      · exact ⟨_, .refl, raised⟩
      · have called : procedures.Calls ⟨depth + 1, proc, state⟩ ⟨depth, callee, entry⟩ :=
          ⟨rfl, reaches⟩
        obtain ⟨culprit, path, raised⟩ := ih callee entry (keep.calls ready called).1 failed
        exact ⟨culprit, .head called path, raised⟩

end Keep

/-- An error anywhere below is the error of the whole run. -/
theorem failed_of_reached {error : ε} {final : σ}
    (path : Relation.ReflTransGen procedures.Calls caller callee)
    (failed : procedures.exec callee.depth callee.proc callee.state = .error error final) :
    procedures.exec caller.depth caller.proc caller.state = .error error final := by
  induction path using Relation.ReflTransGen.head_induction_on with
  | refl => exact failed
  | head called _ ih => exact called.failed ih

end Procedures

end Foundation
