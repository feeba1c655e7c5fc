import Trident.Linking.Image
import Trident.Linking.Program

/-! A processor that counts its calls. It does what the other one does, and the count
tells the entries of functions apart, so that what the new variables hold can be given
for the whole run beforehand. -/

set_option autoImplicit false

namespace Trident

open Foundation

variable {σ : Type}

namespace AsmState

def plain (s : AsmState (σ × Nat)) : AsmState σ := ⟨s.regs, s.flags, s.mem, s.outside.1⟩

def counted (s : AsmState σ) (calls : Nat) : AsmState (σ × Nat) :=
  ⟨s.regs, s.flags, s.mem, s.outside, calls⟩

end AsmState

/-- The image, in which routines do not look at the count. -/
def Image.counted (im : Image σ) : Image (σ × Nat) where
  code := im.code
  address := im.address
  place := im.place
  fetch := im.fetch
  routine name s := (im.routine name s.plain).map (·.counted s.outside.2)

section

variable {im : Image σ} {name : CStr} {s s' : AsmState (σ × Nat)}

private theorem exec_plain {instr : Instr} (ran : instr.exec (im.counted.world name) s = .ok s') :
    instr.exec (im.world name) s.plain = .ok s'.plain ∧ s'.outside = s.outside := by
  cases instr with
  | mov dst src =>
      cases dst <;> cases src <;> cases ran <;> exact ⟨rfl, rfl⟩
  | lea dst src => cases src <;> cases ran <;> exact ⟨rfl, rfl⟩
  | alu op dst src => cases src <;> cases ran <;> exact ⟨rfl, rfl⟩
  | idiv src =>
      cases divided : idivResult (s.regs .rdx) (s.regs .rax) (s.regs src) with
      | none =>
          rw [Instr.exec, divided] at ran
          cases ran
      | some result =>
          rw [Instr.exec, divided] at ran
          cases ran
          have divided' : idivResult (s.plain.regs .rdx) (s.plain.regs .rax) (s.plain.regs src) =
              some result := divided
          rw [Instr.exec, divided']
          exact ⟨rfl, rfl⟩
  | setAl cond =>
      cases set : s.flags with
      | none =>
          rw [Instr.exec, set] at ran
          cases ran
      | some flags =>
          rw [Instr.exec, set] at ran
          cases ran
          have set' : s.plain.flags = some flags := set
          rw [Instr.exec, set']
          exact ⟨rfl, rfl⟩
  | label | jnz | jmp | call | ret => cases ran
  | _ =>
      cases ran
      exact ⟨rfl, rfl⟩

/-- A step of a function that is neither a call nor a return. -/
private theorem asmStep_plain {code position position' : List Instr}
    (stepped : asmStep (im.counted.world name) code position s = .ok (.more position') s') :
    asmStep (im.world name) code position s.plain = .ok (.more position') s'.plain ∧
      s'.outside = s.outside := by
  cases position with
  | nil => cases stepped
  | cons instr rest =>
      have straight (straight : instr.Straight) :
          asmStep (im.world name) code (instr :: rest) s.plain = .ok (.more position') s'.plain ∧
            s'.outside = s.outside := by
        obtain ⟨rfl, ran⟩ := exec_of_asmStep straight stepped
        obtain ⟨ran', same⟩ := exec_plain ran
        exact ⟨asmStep_exec ran', same⟩
      cases instr with
      | label | jmp =>
          cases stepped
          exact ⟨rfl, rfl⟩
      | jnz id =>
          cases set : s.flags with
          | none =>
              rw [asmStep, bind_run_of_ok (get_run s), set] at stepped
              cases stepped
          | some flags =>
              rw [asmStep, bind_run_of_ok (get_run s), set] at stepped
              cases stepped
              have set' : s.plain.flags = some flags := set
              rw [asmStep, bind_run_of_ok (get_run s.plain), set']
              exact ⟨rfl, rfl⟩
      | call callee => cases stepped
      | ret => cases stepped
      | _ => exact straight trivial

private theorem within_plain {ahead : List Instr} {next : Next (CStr × List Instr) Word}
    (notRet : ∀ rest, ahead ≠ .ret :: rest)
    (stepped : im.counted.within name ahead s = .ok next s') :
    im.within name ahead s.plain = .ok next s'.plain ∧ s'.outside.2 = s.outside.2 := by
  obtain ⟨place, middle, ran, last⟩ := bind_eq_ok.mp stepped
  cases place with
  | done target =>
      obtain ⟨rest, same, _⟩ := asmStep_done ran
      exact absurd same (notRet rest)
  | more rest =>
      cases last
      obtain ⟨ran', same⟩ := asmStep_plain ran
      exact ⟨bind_eq_ok.mpr ⟨_, _, ran', rfl⟩, by rw [same]⟩

/-- The number of calls that the next step makes. -/
def callsAt : List Instr → Nat
  | .call _ :: _ => 1
  | _ => 0

/-- A step of the processor that counts is one of the other processor. -/
private theorem counted_step {position : CStr × List Instr} {next : Next (CStr × List Instr) Word}
    (stepped : im.counted.stepWith counting position s = .ok next s') :
    im.step position s.plain = .ok next s'.plain ∧
      s'.outside.2 = s.outside.2 + callsAt position.2 := by
  obtain ⟨name, ahead⟩ := position
  cases ahead with
  | nil => exact within_plain (by simp) stepped
  | cons instr rest =>
      cases instr with
      | call callee =>
          let entered := im.enter id name rest s.plain
          cases found : im.code callee with
          | some code =>
              have counted : im.counted.stepWith counting (name, .call callee :: rest) s =
                  .ok (.more (callee, code)) (im.counted.enter counting name rest s) :=
                Image.step_enters found
              cases counted.symm.trans stepped
              exact ⟨Image.step_enters found, rfl⟩
          | none =>
              cases returns : im.routine callee entered with
              | none =>
                  have counted : im.counted.stepWith counting (name, .call callee :: rest) s =
                      .error .noReturn (im.counted.enter counting name rest s) :=
                    Image.step_stuck found (Option.map_eq_none_iff.mpr returns)
                  cases counted.symm.trans stepped
              | some returned =>
                  have counted : im.counted.stepWith counting (name, .call callee :: rest) s =
                      .ok (.more (name, rest)) (returned.counted (s.outside.2 + 1)) :=
                    Image.step_routine found (Option.map_eq_some_iff.mpr ⟨returned, returns, rfl⟩)
                  cases counted.symm.trans stepped
                  exact ⟨Image.step_routine found returns, rfl⟩
      | ret =>
          cases fetched : im.fetch (s.mem.load (s.regs .rsp)) with
          | none =>
              have counted : im.counted.stepWith counting (name, .ret :: rest) s =
                  .ok (.done (s.mem.load (s.regs .rsp))) (s.setReg .rsp (s.regs .rsp + 8)) :=
                Image.step_last fetched
              cases counted.symm.trans stepped
              exact ⟨Image.step_last fetched, rfl⟩
          | some position =>
              have counted : im.counted.stepWith counting (name, .ret :: rest) s =
                  .ok (.more position) (s.setReg .rsp (s.regs .rsp + 8)) := Image.step_ret fetched
              cases counted.symm.trans stepped
              exact ⟨Image.step_ret fetched, rfl⟩
      | _ => exact within_plain (by simp) stepped

end

/-- A run that counts its calls. -/
def Image.counting (im : Image σ) (name : CStr) (code : List Instr) (s : AsmState σ) :
    Process (σ × Nat) :=
  { im.counted with tick := Trident.counting, first := (name, code), origin := s.counted 0 }

section

variable {im : Image σ} {name : CStr} {code : List Instr} {start : AsmState σ}
  {here there : CStr × List Instr} {s s' t t' : AsmState (σ × Nat)}

theorem goes_plain (goes : (im.counting name code start).Goes here s there s') :
    Leads im.step here s.plain there s'.plain ∧ s.outside.2 ≤ s'.outside.2 := by
  obtain ⟨n, path⟩ := goes
  induction path with
  | refl => exact ⟨.refl _ _, Nat.le_refl _⟩
  | cons stepped _ ih =>
      obtain ⟨stepped', more⟩ := counted_step stepped
      exact ⟨.trans (.one stepped') ih.1, by omega⟩

/-- A call is not made twice with the same number. -/
private theorem goes_call {caller callee : CStr} {rest : List Instr}
    (goes : (im.counting name code start).Goes (caller, .call callee :: rest) s there s')
    (same : s.outside.2 = s'.outside.2) : there = (caller, .call callee :: rest) ∧ s' = s := by
  obtain ⟨n, path⟩ := goes
  cases path with
  | refl => exact ⟨rfl, rfl⟩
  | cons stepped later =>
      obtain ⟨_, more⟩ := counted_step stepped
      obtain ⟨_, least⟩ := goes_plain ⟨_, later⟩
      change _ = _ + 1 at more
      omega

private theorem seen_unique {caller caller' callee callee' : CStr} {rest rest' : List Instr}
    (first : (im.counting name code start).Seen (caller, .call callee :: rest) s)
    (second : (im.counting name code start).Seen (caller', .call callee' :: rest') s')
    (same : s.outside.2 = s'.outside.2) :
    caller' = caller ∧ callee' = callee ∧ rest' = rest ∧ s' = s := by
  obtain goes | goes := first.total second
  · obtain ⟨place, rfl⟩ := goes_call goes same
    cases place
    exact ⟨rfl, rfl, rfl, rfl⟩
  · obtain ⟨place, rfl⟩ := goes_call goes same.symm
    cases place
    exact ⟨rfl, rfl, rfl, rfl⟩

end

section

variable {p : Program σ}

/-- The variables of the function hold what is given for them. -/
def Program.Holds (p : Program σ) (fresh : Nat → Nat → Word) (name : CStr) (s : AsmState (σ × Nat)) :
    Prop :=
  ∀ f, p.function name = some f → ∀ k < f.nAlloc,
    s.mem.load (f.cell (s.regs .rsp) k) = fresh s.outside.2 k

/-- What the new variables hold in a run, for all its calls at once. -/
theorem Program.exists_fresh (p : Program σ) (im : Image σ) (name : CStr) (code : List Instr)
    (start : AsmState σ) : ∃ fresh : Nat → Nat → Word, p.Holds fresh name (start.counted 0) ∧
      ∀ caller callee rest s, (im.counting name code start).Seen (caller, .call callee :: rest) s →
        p.Holds fresh callee (im.counted.enter counting caller rest s) := by
  classical
  let words (name : CStr) (s : AsmState (σ × Nat)) (k : Nat) : Word :=
    match p.function name with
    | some f => s.mem.load (f.cell (s.regs .rsp) k)
    | none => 0
  let entered (n : Nat) (row : Nat → Word) : Prop := ∀ caller callee rest s,
    (im.counting name code start).Seen (caller, .call callee :: rest) s → s.outside.2 = n →
      row = words callee (im.counted.enter counting caller rest s)
  have rows (n : Nat) : ∃ row, entered n row := by
    by_cases some : ∃ caller callee rest s,
      (im.counting name code start).Seen (caller, .call callee :: rest) s ∧ s.outside.2 = n
    · obtain ⟨caller, callee, rest, s, seen, number⟩ := some
      refine ⟨words callee (im.counted.enter counting caller rest s),
        fun caller' callee' rest' s' seen' number' => ?_⟩
      obtain ⟨rfl, rfl, rfl, rfl⟩ := seen_unique seen seen' (number.trans number'.symm)
      rfl
    · exact ⟨fun _ => 0, fun caller callee rest s seen number =>
        absurd ⟨caller, callee, rest, s, seen, number⟩ some⟩
  choose row row_entered using rows
  refine ⟨fun n => if n = 0 then words name (start.counted 0) else row (n - 1), ?_, ?_⟩
  · intro f known k _
    change _ = words name (start.counted 0) k
    simp only [words, known]
  · intro caller callee rest s seen f known k _
    have same := row_entered s.outside.2 caller callee rest s seen rfl
    change _ = (if s.outside.2 + 1 = 0 then _ else row (s.outside.2 + 1 - 1)) k
    rw [if_neg (Nat.succ_ne_zero _), Nat.add_sub_cancel, same]
    simp only [words, known]

end

end Trident
