import Trident.Amd64.Instructions

/-! The frame of a function: the words below the base pointer, what the prologue
puts into them, and how a call leaves them alone. -/

set_option autoImplicit false

namespace Trident

open Foundation

variable {σ : Type} {m : AsmWorld σ} {s s' s'' : AsmState σ}

/-- The number of words in a frame of that size. -/
def frameWords (maxT nAlloc : Nat) : Nat := (maxT + nAlloc + 1) / 2 * 2

theorem frameSize_eq (maxT nAlloc : Nat) : frameSize maxT nAlloc = 8 * frameWords maxT nAlloc := by
  unfold frameSize frameWords
  omega

theorem le_frameWords (maxT nAlloc : Nat) : maxT + nAlloc ≤ frameWords maxT nAlloc := by
  unfold frameWords
  omega

theorem argRegs_ne {reg : Reg} (member : reg ∈ argRegs) :
    reg ≠ .rax ∧ reg ≠ .rsp ∧ reg ≠ .rbp := by
  revert member
  cases reg <;> decide

/-- Where the prologue finds the parameter with index `i`. -/
def AsmState.incoming (s : AsmState σ) (bp : Word) (i : Nat) : Word :=
  match argRegs[i]? with
  | some reg => s.regs reg
  | none => s.mem.load (bp + BitVec.ofNat 64 (16 + (i - nArgRegs) * 8))

/-- All registers but `rax` are as before. -/
structure AsmState.Spared (s s' : AsmState σ) : Prop where
  regs : ∀ reg, reg ≠ .rax → s'.regs reg = s.regs reg
  outside : s'.outside = s.outside

namespace AsmState.Spared

theorem trans (first : s.Spared s') (second : s'.Spared s'') : s.Spared s'' where
  regs reg other := (second.regs reg other).trans (first.regs reg other)
  outside := second.outside.trans first.outside

theorem incoming (spared : s.Spared s') {bp : Word} {i : Nat}
    (mem : s'.mem.load (bp + BitVec.ofNat 64 (16 + (i - nArgRegs) * 8)) =
      s.mem.load (bp + BitVec.ofNat 64 (16 + (i - nArgRegs) * 8))) :
    s'.incoming bp i = s.incoming bp i := by
  unfold AsmState.incoming
  cases found : argRegs[i]? with
  | none => exact mem
  | some reg =>
      exact spared.regs reg (argRegs_ne (List.mem_of_getElem? found)).1

end AsmState.Spared

private theorem asmParam_runs (i : Nat) : ∃ s', execInstrs m (asmParam i) s = .ok s' ∧ s.Spared s' ∧
    s'.mem = s.mem.store (stackWord (s.regs .rbp) (i + 1)) (s.incoming (s.regs .rbp) i) := by
  unfold asmParam AsmState.incoming
  rw [← addr_slot]
  cases argRegs[i]? with
  | some reg => exact ⟨_, rfl, ⟨fun _ _ => rfl, rfl⟩, rfl⟩
  | none => exact ⟨_, rfl, ⟨fun reg other => Function.update_of_ne other _ _, rfl⟩, rfl⟩

private theorem incoming_apart {bp : Word} {k i : Nat} (near : k + i + 2 < 2 ^ 61) :
    Mem.Apart (stackWord bp k) (bp + BitVec.ofNat 64 (16 + (i - nArgRegs) * 8)) := by
  rw [show 16 + (i - nArgRegs) * 8 = 8 * (i - nArgRegs + 2) by omega]
  exact stackWord_apart_above (Nat.succ_pos _) (by omega)

/-- The loop over the parameters stores them into the first slots. -/
private theorem asmParams_runs {count i : Nat} (near : 2 * (i + count) + 2 < 2 ^ 61) :
    ∃ s', execInstrs m (asmParams count i) s = .ok s' ∧ s.Spared s' ∧
      Mem.ChangesOnly (StackRange (s.regs .rbp) (i + 1) (i + count + 1)) s.mem s'.mem ∧
      ∀ j, i ≤ j → j < i + count →
        s'.mem.load (stackWord (s.regs .rbp) (j + 1)) = s.incoming (s.regs .rbp) j := by
  induction count generalizing i s with
  | zero => exact ⟨s, rfl, ⟨fun _ _ => rfl, rfl⟩, .refl _ _, fun j low high => by omega⟩
  | succ count ih =>
      obtain ⟨middle, first, spared, stored⟩ := asmParam_runs (m := m) (s := s) i
      obtain ⟨last, rest, spared', changed, loaded⟩ :=
        ih (i := i + 1) (s := middle) (show 2 * (i + 1 + count) + 2 < 2 ^ 61 by omega)
      have bp : middle.regs .rbp = s.regs .rbp := spared.regs .rbp (by decide)
      rw [bp] at changed loaded
      have here : Mem.ChangesOnly (StackRange (s.regs .rbp) (i + 1) (i + (count + 1) + 1))
          s.mem middle.mem := stored ▸ .store ⟨i + 1, by omega, by omega, rfl⟩
      refine ⟨last, ?_, spared.trans spared', here.trans (changed.mono fun _ inside =>
        inside.mono (by omega) (by omega)), fun j low high => ?_⟩
      · rw [asmParams, execInstrs_append first]
        exact rest
      · obtain rfl | later : j = i ∨ i < j := by omega
        · rw [changed.load fun other inside => inside.apart (by omega) (by omega) (by omega),
            stored, Mem.load_store]
        · rw [loaded j (by omega) (by omega)]
          refine spared.incoming ?_
          rw [stored]
          exact Mem.load_store_apart (incoming_apart (by omega))

section Code

variable {maxT allocI params : Nat} {nodes : List IrNode} {code : List Instr}

theorem asmNodes_cons {node : IrNode}
    (accepted : asmNodes maxT (node :: nodes) allocI = .ok code) :
    ∃ lines next rest, asmNode node allocI maxT = .ok (lines, next) ∧
      asmNodes maxT nodes next = .ok rest ∧ code = lines ++ rest := by
  rw [asmNodes] at accepted
  cases first : asmNode node allocI maxT with
  | error diag =>
      rw [first] at accepted
      cases accepted
  | ok result =>
      obtain ⟨lines, next⟩ := result
      rw [first] at accepted
      change (do
        let rest ← asmNodes maxT nodes next
        return lines ++ rest : Except Diag (List Instr)) = .ok code at accepted
      cases rest : asmNodes maxT nodes next with
      | error diag =>
          rw [rest] at accepted
          cases accepted
      | ok others =>
          rw [rest] at accepted
          cases accepted
          exact ⟨lines, next, others, rfl, rest, rfl⟩

theorem asmFunction_ok (accepted : asmFunction params nodes = .ok code) :
    ∃ body, asmNodes (maxTemp params nodes) nodes 1 = .ok body ∧
      code = asmPrologue params (maxTemp params nodes) (countAllocs nodes) ++ body := by
  rw [asmFunction] at accepted
  cases body : asmNodes (maxTemp params nodes) nodes 1 with
  | error diag =>
      simp only [body] at accepted
      cases accepted
  | ok lines =>
      simp only [body] at accepted
      cases accepted
      exact ⟨lines, rfl, rfl⟩

end Code

/-- The state that the prologue of a function leaves behind. -/
structure AsmState.Framed (s s' : AsmState σ) (params maxT nAlloc : Nat) : Prop where
  rbp : s'.regs .rbp = s.regs .rsp - 8
  rsp : s'.regs .rsp = stackWord (s.regs .rsp - 8) (frameWords maxT nAlloc)
  outside : s'.outside = s.outside
  changed : Mem.ChangesOnly (StackRange (s.regs .rsp - 8) 0 (params + 1)) s.mem s'.mem
  saved : s'.mem.load (s.regs .rsp - 8) = s.regs .rbp
  params : ∀ i < params, s'.mem.load (stackWord (s.regs .rsp - 8) (i + 1)) =
    s.incoming (s.regs .rsp - 8) i

private theorem reserve_runs (s : AsmState σ) (maxT nAlloc : Nat) : ∃ s', execInstrs m
      (if frameSize maxT nAlloc ≠ 0 then [.alu .sub .rsp (.imm (frameSize maxT nAlloc))] else []) s =
        .ok s' ∧ s'.mem = s.mem ∧ s'.outside = s.outside ∧
      s'.regs .rsp = stackWord (s.regs .rsp) (frameWords maxT nAlloc) ∧
      ∀ reg, reg ≠ .rsp → s'.regs reg = s.regs reg := by
  have size := frameSize_eq maxT nAlloc
  split
  · refine ⟨_, rfl, rfl, rfl, ?_, fun reg other => Function.update_of_ne other _ _⟩
    rw [stackWord, ← size]
    rfl
  · refine ⟨s, rfl, rfl, rfl, ?_, fun _ _ => rfl⟩
    rw [show frameWords maxT nAlloc = 0 by omega, stackWord_zero]

theorem asmPrologue_runs (s : AsmState σ) {params : Nat} (maxT nAlloc : Nat)
    (near : 2 * params + 2 < 2 ^ 61) :
    ∃ s', execInstrs m (asmPrologue params maxT nAlloc) s = .ok s' ∧
      s.Framed s' params maxT nAlloc := by
  let bp := s.regs .rsp - 8
  let pushed := (s.push (s.regs .rbp)).setReg .rbp bp
  have start : execInstrs m [.push .rbp, .mov (.reg .rbp) (.reg .rsp)] s = .ok pushed := rfl
  obtain ⟨framed, reserve, mem, outside, rsp, regs⟩ := reserve_runs (m := m) pushed maxT nAlloc
  obtain ⟨s', stored, spared, changed, loaded⟩ :=
    asmParams_runs (m := m) (s := framed) (show 2 * (0 + params) + 2 < 2 ^ 61 by omega)
  have base : framed.regs .rbp = bp := regs .rbp (by decide)
  rw [base] at changed loaded
  rw [mem] at changed
  have saving : Mem.ChangesOnly (StackRange bp 0 (params + 1)) s.mem pushed.mem :=
    .store ⟨0, Nat.le_refl 0, Nat.succ_pos _, (stackWord_zero bp).symm⟩
  refine ⟨s', ?_, ⟨?_, ?_, ?_, ?_, ?_, fun i small => ?_⟩⟩
  · rw [asmPrologue, List.append_assoc, execInstrs_append start, execInstrs_append reserve]
    exact stored
  · exact (spared.regs .rbp (by decide)).trans base
  · exact (spared.regs .rsp (by decide)).trans rsp
  · exact spared.outside.trans outside
  · exact saving.trans (changed.mono fun _ inside => inside.mono (by omega) (by omega))
  · have kept := changed.load fun other inside =>
      inside.apart (k := 0) (by omega) (by omega) (by omega)
    rw [stackWord_zero] at kept
    rw [kept]
    exact Mem.load_store _ _ _
  · rw [loaded i (by omega) (by omega)]
    unfold AsmState.incoming
    cases found : argRegs[i]? with
    | some reg =>
        obtain ⟨_, notSp, notBp⟩ := argRegs_ne (List.mem_of_getElem? found)
        change framed.regs reg = s.regs reg
        rw [regs reg notSp]
        change Function.update (Function.update s.regs .rsp _) .rbp _ reg = s.regs reg
        rw [Function.update_of_ne notBp, Function.update_of_ne notSp]
    | none =>
        have apart : Mem.Apart (stackWord bp 0) (bp + _) :=
          incoming_apart (show 0 + i + 2 < 2 ^ 61 by omega)
        rw [stackWord_zero] at apart
        change framed.mem.load _ = _
        rw [mem]
        exact Mem.load_store_apart apart

end Trident
