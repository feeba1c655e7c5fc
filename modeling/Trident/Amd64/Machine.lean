import Trident.Amd64.Emit
import Trident.Semantics
import Trident.Foundation.Runs
import Trident.Foundation.StackWords

/-! The processor that the emitted instructions run on: the registers they name,
the flags that `cmp` and `test` set, and a byte memory that holds the stack. The
instructions of one function are run from a list; where they lie in memory
matters for the return addresses only. -/

set_option autoImplicit false

namespace Trident

open Foundation

variable {σ : Type}

structure Flags where
  zero : Bool
  sign : Bool
  overflow : Bool
  deriving DecidableEq, Repr

def Cond.holds (flags : Flags) : Cond → Bool
  | .e => flags.zero
  | .ne => !flags.zero
  | .g => !flags.zero && flags.sign == flags.overflow
  | .ge => flags.sign == flags.overflow
  | .l => flags.sign != flags.overflow
  | .le => flags.zero || flags.sign != flags.overflow

def cmpFlags (left right : Word) : Flags where
  zero := left - right == 0
  sign := (left - right).msb
  overflow := BitVec.ssubOverflow left right

def testFlags (left right : Word) : Flags where
  zero := left &&& right == 0
  sign := (left &&& right).msb
  overflow := false

/-- The flags are `none` after instructions whose flags nothing looks at. -/
structure AsmState (σ : Type) where
  regs : Reg → Word
  flags : Option Flags
  mem : Mem
  outside : σ

/-- What the instructions of a function refer to. The callee of a `call` is
entered with the return address on the stack, and gives the state after its
`ret`, or `none` if it does not return. -/
structure AsmWorld (σ : Type) where
  address : Symbol → Word
  codeAddr : List Instr → Word
  callee : CStr → AsmState σ → Option (AsmState σ)

namespace AsmState

def setReg (s : AsmState σ) (reg : Reg) (value : Word) : AsmState σ :=
  { s with regs := Function.update s.regs reg value }

def setFlags (s : AsmState σ) (flags : Option Flags) : AsmState σ := { s with flags }

def push (s : AsmState σ) (value : Word) : AsmState σ :=
  let sp := s.regs .rsp - 8
  { s.setReg .rsp sp with mem := s.mem.store sp value }

/-- The address of a memory operand. -/
def addr (m : AsmWorld σ) (s : AsmState σ) : Operand → Option Word
  | .mem base disp => some (s.regs base + BitVec.ofInt 64 disp)
  | .rel symbol => some (m.address symbol)
  | _ => none

def read (m : AsmWorld σ) (s : AsmState σ) : Operand → Word
  | .reg reg => s.regs reg
  | .imm value => BitVec.ofNat 64 value
  | .mem base disp => s.mem.load (s.regs base + BitVec.ofInt 64 disp)
  | .rel symbol => s.mem.load (m.address symbol)

def write (m : AsmWorld σ) (s : AsmState σ) (value : Word) : Operand → Except Halt (AsmState σ)
  | .reg reg => .ok (s.setReg reg value)
  | .imm _ => .error .undefined
  | .mem base disp =>
      .ok { s with mem := s.mem.store (s.regs base + BitVec.ofInt 64 disp) value }
  | .rel symbol => .ok { s with mem := s.mem.store (m.address symbol) value }

end AsmState

def AluOp.apply : AluOp → Word → Word → Word
  | .add, left, right => left + right
  | .sub, left, right => left - right
  | .and, left, right => left &&& right
  | .or, left, right => left ||| right
  | .imul, left, right => left * right

/-- The low byte of `rcx`, of which a shift of 64 bits uses six bits. -/
def clCount (rcx : Word) : Nat := rcx.toNat % 256 % 64

def ShiftOp.apply : ShiftOp → Word → Nat → Word
  | .shl, value, count => value <<< count
  | .sar, value, count => value.sshiftRight count

/-- The quotient and the remainder of `idiv`, which divides `rdx:rax`. -/
def idivResult (rdx rax divisor : Word) : Option (Word × Word) :=
  let dividend := (rdx ++ rax).toInt
  let quotient := dividend.tdiv divisor.toInt
  if divisor = 0 ∨ quotient < -2 ^ 63 ∨ 2 ^ 63 ≤ quotient then none
  else some (BitVec.ofInt 64 quotient, BitVec.ofInt 64 (dividend.tmod divisor.toInt))

/-- An instruction that passes control to the next one. -/
def Instr.exec (m : AsmWorld σ) (s : AsmState σ) : Instr → Except Halt (AsmState σ)
  | .mov dst src => s.write m (s.read m src) dst
  | .lea dst src =>
      match s.addr m src with
      | some addr => .ok (s.setReg dst addr)
      | none => .error .undefined
  | .push src => .ok (s.push (s.regs src))
  | .alu op dst src => .ok ((s.setReg dst (op.apply (s.regs dst) (s.read m src))).setFlags none)
  | .neg dst => .ok ((s.setReg dst (-s.regs dst)).setFlags none)
  | .cqo => .ok (s.setReg .rdx (if (s.regs .rax).msb then -1 else 0))
  | .idiv src =>
      match idivResult (s.regs .rdx) (s.regs .rax) (s.regs src) with
      | some (quotient, remainder) =>
          .ok (((s.setReg .rax quotient).setReg .rdx remainder).setFlags none)
      | none => .error .trap
  | .shiftCl op dst =>
      .ok ((s.setReg dst (op.apply (s.regs dst) (clCount (s.regs .rcx)))).setFlags none)
  | .cmp left right => .ok (s.setFlags (some (cmpFlags (s.regs left) (s.regs right))))
  | .setAl cond =>
      match s.flags with
      | some flags =>
          let byte : BitVec 8 := if cond.holds flags then 1 else 0
          .ok (s.setReg .rax ((s.regs .rax).extractLsb' 8 56 ++ byte))
      | none => .error .undefined
  | .movzxRaxAl => .ok (s.setReg .rax (((s.regs .rax).extractLsb' 0 8).setWidth 64))
  | .test left right => .ok (s.setFlags (some (testFlags (s.regs left) (s.regs right))))
  | .xorEax => .ok ((s.setReg .rax 0).setFlags none)
  | .leave =>
      let bp := s.regs .rbp
      .ok ((s.setReg .rsp (bp + 8)).setReg .rbp (s.mem.load bp))
  | _ => .error .undefined

/-- The instructions from the label `id` on. -/
def instrTarget (id : Nat) (code : List Instr) : List Instr :=
  code.dropWhile (· ≠ .label id)

abbrev AsmM (σ : Type) := EStateM Halt (AsmState σ)

/-- One step of a function with the instructions `code`, of which the list given
are those still ahead. Its result is the address it returns to. -/
def asmStep (m : AsmWorld σ) (code : List Instr) :
    List Instr → AsmM σ (Next (List Instr) Word)
  | [] => throw .undefined
  | .label _ :: rest => return .more rest
  | .jmp id :: _ => return .more (instrTarget id code)
  | .jnz id :: rest => do
      match (← get).flags with
      | some flags => return .more (if flags.zero then rest else instrTarget id code)
      | none => throw .undefined
  | .call name :: rest => fun s =>
      let entered := s.push (m.codeAddr rest)
      match m.callee name entered with
      | some returned => .ok (.more rest) returned
      | none => .error .noReturn entered
  | .ret :: _ => fun s =>
      let sp := s.regs .rsp
      .ok (.done (s.mem.load sp)) (s.setReg .rsp (sp + 8))
  | instr :: rest => fun s =>
      match instr.exec m s with
      | .ok s' => .ok (.more rest) s'
      | .error halt => .error halt s

/-- An instruction that `exec` runs. -/
def Instr.Straight : Instr → Prop
  | .label _ | .jmp _ | .jnz _ | .call _ | .ret => False
  | _ => True

/-- Instructions one after the other. -/
def execInstrs (m : AsmWorld σ) : List Instr → AsmState σ → Except Halt (AsmState σ)
  | [], s => .ok s
  | instr :: instrs, s =>
      match instr.exec m s with
      | .ok s' => execInstrs m instrs s'
      | .error halt => .error halt

section

variable {m : AsmWorld σ} {code rest : List Instr} {s s' s'' : AsmState σ} {instr : Instr}

theorem asmStep_exec (ran : instr.exec m s = .ok s') :
    asmStep m code (instr :: rest) s = .ok (.more rest) s' := by
  cases instr <;> first | (cases ran; done) | (rw [asmStep]; simp only [ran])

private theorem asmStep_trap (halted : instr.exec m s = .error .trap) :
    asmStep m code (instr :: rest) s = .error .trap s := by
  cases instr <;> first | cases halted | (rw [asmStep]; simp only [halted])

private theorem asmStep_straight (straight : instr.Straight) :
    asmStep m code (instr :: rest) s = match instr.exec m s with
      | .ok s' => .ok (.more rest) s'
      | .error halt => .error halt s := by
  cases instr <;> first | exact straight.elim | rfl

theorem exec_of_asmStep {next : List Instr} (straight : instr.Straight)
    (stepped : asmStep m code (instr :: rest) s = .ok (.more next) s') :
    next = rest ∧ instr.exec m s = .ok s' := by
  rw [asmStep_straight straight] at stepped
  split at stepped <;> cases stepped
  exact ⟨rfl, by assumption⟩

/-- A function ends with a `ret` only. -/
theorem asmStep_done {ahead : List Instr} {value : Word}
    (stepped : asmStep m code ahead s = .ok (.done value) s') :
    ∃ rest, ahead = .ret :: rest ∧ value = s.mem.load (s.regs .rsp) ∧
      s' = s.setReg .rsp (s.regs .rsp + 8) := by
  cases ahead with
  | nil => cases stepped
  | cons instr rest =>
      have straight (straight : instr.Straight) : False := by
        rw [asmStep_straight straight] at stepped
        split at stepped <;> cases stepped
      cases instr with
      | ret =>
          cases stepped
          exact ⟨rest, rfl, rfl, rfl⟩
      | label | jmp => cases stepped
      | jnz id =>
          cases set : s.flags <;>
            (rw [asmStep, bind_run_of_ok (get_run s), set] at stepped
             cases stepped)
      | call name =>
          cases returned : m.callee name (s.push (m.codeAddr rest)) <;>
            (simp only [asmStep, returned] at stepped
             cases stepped)
      | _ => exact (straight trivial).elim

theorem execInstrs_append {first second : List Instr} (ran : execInstrs m first s = .ok s') :
    execInstrs m (first ++ second) s = execInstrs m second s' := by
  induction first generalizing s with
  | nil =>
      cases ran
      rfl
  | cons instr first ih =>
      rw [List.cons_append, execInstrs] at *
      cases step : instr.exec m s with
      | ok middle =>
          rw [step] at ran
          exact ih ran
      | error halt =>
          rw [step] at ran
          cases ran

theorem execInstrs_append_error {first second : List Instr} {halt : Halt}
    (halted : execInstrs m first s = .error halt) :
    execInstrs m (first ++ second) s = .error halt := by
  induction first generalizing s with
  | nil => cases halted
  | cons instr first ih =>
      rw [List.cons_append, execInstrs] at *
      cases step : instr.exec m s with
      | ok middle =>
          rw [step] at halted
          exact ih halted
      | error other =>
          rw [step] at halted
          exact halted

theorem path_instrs {instrs : List Instr} (ran : execInstrs m instrs s = .ok s') :
    Path (asmStep m code) instrs.length (instrs ++ rest) s rest s' := by
  induction instrs generalizing s with
  | nil =>
      cases ran
      exact .refl
  | cons instr instrs ih =>
      rw [execInstrs] at ran
      cases step : instr.exec m s with
      | ok middle =>
          rw [step] at ran
          exact .cons (asmStep_exec step) (ih ran)
      | error halt =>
          rw [step] at ran
          cases ran

theorem ends_trap {instrs : List Instr} (ran : execInstrs m instrs s = .error .trap) :
    ∃ final, Ends (asmStep m code) (instrs ++ rest) s (.error .trap final) := by
  induction instrs generalizing s with
  | nil => cases ran
  | cons instr instrs ih =>
      rw [execInstrs] at ran
      cases step : instr.exec m s with
      | ok middle =>
          rw [step] at ran
          obtain ⟨final, ends⟩ := ih ran
          exact ⟨final, .of_path (.one (asmStep_exec step)) ends⟩
      | error halt =>
          rw [step] at ran
          cases ran
          exact ⟨s, 0, _, _, .refl, asmStep_trap step⟩

end

end Trident
