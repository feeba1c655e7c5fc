import Trident.Amd64.Refinement

/-! Which words of the memory the code of a function changes: those of its frame and
below it, and those that the program stores to. -/

set_option autoImplicit false

namespace Trident

open Foundation

variable {σ : Type} {m : AsmWorld σ} {s s' : AsmState σ}

/-- An instruction that changes neither the memory nor the base pointer. -/
def Instr.Quiet : Instr → Prop
  | .mov (.reg reg) _ => reg ≠ .rbp
  | .mov .. | .push _ | .leave => False
  | instr => .rbp ∉ instr.writes

private theorem exec_quiet {instr : Instr} (quiet : instr.Quiet) (ran : instr.exec m s = .ok s') :
    s'.mem = s.mem ∧ s'.regs .rbp = s.regs .rbp := by
  constructor
  · cases instr with
    | mov dst src =>
        cases dst with
        | reg dst =>
            cases ran
            rfl
        | _ => exact quiet.elim
    | lea dst src => cases src <;> cases ran <;> rfl
    | push | leave => exact quiet.elim
    | idiv src | setAl cond =>
        rw [Instr.exec] at ran
        split at ran <;> cases ran
        rfl
    | label | jnz | jmp | call | ret => cases ran
    | _ =>
        cases ran
        rfl
  · refine exec_writes (fun written => ?_) ran
    cases instr with
    | mov dst src =>
        cases dst with
        | reg dst => exact quiet (List.mem_singleton.mp written).symm
        | _ => exact quiet
    | push | leave => exact quiet
    | _ => exact quiet written

private theorem execInstrs_quiet {instrs : List Instr} (quiet : ∀ instr ∈ instrs, instr.Quiet)
    (ran : execInstrs m instrs s = .ok s') : s'.mem = s.mem ∧ s'.regs .rbp = s.regs .rbp := by
  induction instrs generalizing s with
  | nil =>
      cases ran
      exact ⟨rfl, rfl⟩
  | cons instr instrs ih =>
      obtain ⟨first, rest⟩ := List.forall_mem_cons.mp quiet
      rw [execInstrs] at ran
      cases step : instr.exec m s with
      | error halt =>
          rw [step] at ran
          cases ran
      | ok middle =>
          rw [step] at ran
          obtain ⟨mem, rbp⟩ := exec_quiet first step
          obtain ⟨mem', rbp'⟩ := ih rest ran
          exact ⟨mem'.trans mem, rbp'.trans rbp⟩

private theorem execInstrs_append_ok {first second : List Instr}
    (ran : execInstrs m (first ++ second) s = .ok s') :
    ∃ middle, execInstrs m first s = .ok middle ∧ execInstrs m second middle = .ok s' := by
  cases result : execInstrs m first s with
  | ok middle => exact ⟨middle, rfl, (execInstrs_append result).symm.trans ran⟩
  | error halt =>
      rw [execInstrs_append_error result] at ran
      cases ran

/-- Code that ends with storing a register to a slot. -/
private theorem execInstrs_st {front : List Instr} {d : Nat} {reg : Reg}
    (quiet : ∀ instr ∈ front, instr.Quiet) (ran : execInstrs m (front ++ [st d reg]) s = .ok s') :
    ∃ value, s'.mem = s.mem.store (stackWord (s.regs .rbp) d) value := by
  obtain ⟨middle, before, after⟩ := execInstrs_append_ok ran
  obtain ⟨mem, rbp⟩ := execInstrs_quiet quiet before
  rw [execInstrs, exec_st, rbp] at after
  cases after
  exact ⟨_, by rw [← mem]⟩

/-- The word that an operation changes. -/
inductive IrOp.Writes (m : AsmWorld σ) (s : AsmState σ) (d x : Nat) (name : CStr) :
    IrOp → Word → Prop where
  | slot {op} : op ≠ .store → op ≠ .globalS → Writes m s d x name op (stackWord (s.regs .rbp) d)
  | store : Writes m s d x name .store (s.mem.load (stackWord (s.regs .rbp) x))
  | globalS : Writes m s d x name .globalS (m.address (.var name))

private theorem asmOp_writes {d x y imm allocI maxT next : Nat} {op : IrOp} {name : CStr}
    {lines : List Instr} (accepted : asmOp d op x y imm name allocI maxT = .ok (lines, next))
    (ran : execInstrs m lines s = .ok s') :
    ∃ addr value, op.Writes m s d x name addr ∧ s'.mem = s.mem.store addr value := by
  have slot (front : List Instr) (reg : Reg) (same : lines = front ++ [st d reg])
      (quiet : ∀ instr ∈ front, instr.Quiet) (notStore : op ≠ .store) (notGlobal : op ≠ .globalS) :
      ∃ addr value, op.Writes m s d x name addr ∧ s'.mem = s.mem.store addr value := by
    subst same
    obtain ⟨value, stored⟩ := execInstrs_st quiet ran
    exact ⟨_, value, .slot notStore notGlobal, stored⟩
  have loads (reg : Reg) (t : Nat) (other : reg ≠ .rbp) : (ld reg t).Quiet := other
  cases op with
  | unset => cases accepted
  | store =>
      cases accepted
      let addr := s.mem.load (stackWord (s.regs .rbp) x)
      let value := s.mem.load (stackWord (s.regs .rbp) y)
      have stored : execInstrs m [ld .rax y, ld .rcx x, .mov (.mem .rcx 0) (.reg .rax)] s =
          .ok { (s.setReg .rax value).setReg .rcx addr with
            mem := s.mem.store (addr + 0#64) value } := by
        rw [execInstrs, exec_ld]
        dsimp only
        rw [execInstrs, exec_ld]
        rfl
      cases stored.symm.trans ran
      exact ⟨addr, value, .store, by rw [BitVec.add_zero]⟩
  | globalS =>
      cases accepted
      rw [execInstrs, exec_ld] at ran
      cases ran
      exact ⟨_, _, .globalS, rfl⟩
  | const | data | alloc | address | globalL | globalAddr =>
      cases accepted
      exact slot [_] .rax rfl (by simp [Instr.Quiet, Instr.writes, ld]) (by simp) (by simp)
  | load | neg =>
      cases accepted
      exact slot [_, _] .rax rfl (by simp [Instr.Quiet, Instr.writes, ld]) (by simp) (by simp)
  | add | sub | mul | and | or | shl | shr =>
      cases accepted
      exact slot [_, _, _] .rax rfl (by simp [Instr.Quiet, Instr.writes, ld]) (by simp) (by simp)
  | div | mod =>
      cases accepted
      exact slot [_, _, _, _] _ rfl (by simp [Instr.Quiet, Instr.writes, ld]) (by simp) (by simp)
  | eq | ne | gt | ge | lt | le =>
      cases accepted
      exact slot [_, _, _, _, _] .rax rfl (by simp [Instr.Quiet, Instr.writes, ld]) (by simp) (by simp)

namespace Activation

variable {a : Activation σ} {w : World σ} {ir ir' : IrState σ}

/-- The words that an activation and the calls it makes may change. -/
def Touched (a : Activation σ) (addr : Word) : Prop :=
  a.Shared addr ∨ StackRange (a.entry.regs .rsp) 1 a.depth addr

theorem touched_slot {k : Nat} (deep : k + 1 < a.depth) : a.Touched (a.slot k) :=
  .inr ⟨k + 1, Nat.le_add_left 1 k, deep, a.slot_eq k⟩

/-- The code of an operation changes one word, in the frame or one that the program
stores to. -/
theorem operation_changes (links : a.Links w m) (corresponds : a.Corresponds ir s)
    {d x y imm allocI next : Nat} {op : IrOp} {name : CStr} {lines : List Instr}
    (member : .operation d op x y imm name ∈ a.nodes)
    (accepted : asmOp d op x y imm name allocI a.maxT = .ok (lines, next)) {cell : Word}
    (did : execOp w cell d op x y imm name ir = .ok () ir') (good : a.Good ir')
    (ran : execInstrs m lines s = .ok s') : Mem.ChangesOnly a.Touched s.mem s'.mem := by
  obtain ⟨least, room, near⟩ := a.sizes
  obtain ⟨addr, value, writes, stored⟩ := asmOp_writes accepted ran
  rw [stored]
  refine .store ?_
  cases writes with
  | slot notStore notGlobal =>
      have dest : (IrNode.operation d op x y imm name).dest? = some d := by
        cases op <;> first | rfl | exact absurd rfl notStore | exact absurd rfl notGlobal
      have small : d ≤ a.maxT := dest_le_maxTemp member dest
      rw [corresponds.rbp]
      exact touched_slot (by omega)
  | store =>
      rw [execOp] at did
      cases found : ir.temps x with
      | none =>
          rw [bind_run_of_error (readTemp_none found)] at did
          cases did
      | some target =>
          rw [bind_run_of_ok (readTemp_some found)] at did
          cases found' : ir.temps y with
          | none =>
              rw [bind_run_of_error (readTemp_none found')] at did
              cases did
          | some word =>
              rw [bind_run_of_ok (readTemp_some found')] at did
              cases did
              have shared : a.Shared target := good.last rfl
              obtain ⟨_, _, loaded⟩ := corresponds.temps x target found
              rw [corresponds.rbp]
              exact .inl (loaded ▸ shared)
  | globalS =>
      rw [links.var]
      exact .inl (.inl (links.outer name))

end Activation

end Trident
