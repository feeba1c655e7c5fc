import Trident.Amd64.Machine
import Trident.Ir.Machine

/-! What the instruction sequences of `asm_op` compute: the operations of the IR
on the operands in `rax` and `rcx`. -/

set_option autoImplicit false

namespace Trident

open Foundation

variable {σ : Type}

section Arithmetic

/-- After `cmp`, the sign and overflow flags differ when the left operand is less. -/
private theorem cmpFlags_less (a b : Word) :
    ((cmpFlags a b).sign != (cmpFlags a b).overflow) = a.slt b := by
  have left_lt : a.toInt < 2 ^ 63 := BitVec.toInt_lt
  have right_lt : b.toInt < 2 ^ 63 := BitVec.toInt_lt
  have left_ge : -2 ^ 63 ≤ a.toInt := BitVec.le_toInt a
  have right_ge : -2 ^ 63 ≤ b.toInt := BitVec.le_toInt b
  have sign : (a - b).msb = decide ((a.toInt - b.toInt).bmod (2 ^ 64) < 0) := by
    rw [BitVec.msb_eq_toInt, BitVec.toInt_sub]
  rw [cmpFlags, sign, BitVec.slt_eq_decide, BitVec.ssubOverflow, ← Bool.decide_or,
    Bool.eq_iff_iff, bne_iff_ne, ne_eq, decide_eq_decide, decide_eq_true_eq, Int.bmod]
  -- the difference wraps around once when it does not fit
  split <;> omega

private theorem cmpFlags_zero (a b : Word) : (cmpFlags a b).zero = (a == b) := by
  rw [cmpFlags, Bool.eq_iff_iff, beq_iff_eq, beq_iff_eq, BitVec.sub_eq_iff_eq_add]
  simp

/-- The condition that `setcc_for` selects is the comparison that the operation is. -/
private theorem value_setccFor {op : IrOp} {cond : Cond} (set : setccFor op = some cond) (a b : Word) :
    (op.value a b : StoreM σ Word) = compute (truth (cond.holds (cmpFlags a b))) := by
  have less := cmpFlags_less a b
  have not_less : ((cmpFlags a b).sign == (cmpFlags a b).overflow) = b.sle a := by
    rw [BitVec.sle_eq_not_slt, ← less]
    cases (cmpFlags a b).sign <;> cases (cmpFlags a b).overflow <;> rfl
  have greater : (!(a == b) && b.sle a) = b.slt a := by
    rw [BitVec.slt_eq_sle_and_ne, Bool.and_comm, BEq.comm]
    rfl
  have not_greater : (a == b || a.slt b) = a.sle b := by
    rw [BitVec.sle_eq_slt_or_eq, Bool.or_comm]
  cases op <;> cases set <;> rw [Cond.holds, IrOp.value]
  case ne =>
    rw [cmpFlags_zero]
    rfl
  all_goals simp only [cmpFlags_zero, less, not_less, greater, not_greater]

private theorem toInt_signExtended (a : Word) :
    ((if a.msb then -1 else 0 : Word) ++ a).toInt = a.toInt := by
  rw [BitVec.toInt_append, if_neg (by decide)]
  have cond := BitVec.toInt_eq_msb_cond a
  cases sign : a.msb with
  | true =>
      rw [sign, if_pos rfl] at cond
      rw [if_pos rfl, cond, show BitVec.toInt (-1 : Word) = -1 by decide]
      omega
  | false =>
      rw [sign, if_neg Bool.false_ne_true] at cond
      rw [if_neg Bool.false_ne_true, cond, show BitVec.toInt (0 : Word) = 0 by decide]
      omega

/-- A quotient fits into a word unless the division traps. -/
private theorem tdiv_fits {a b : Word} (nonzero : b ≠ 0) :
    (a.toInt.tdiv b.toInt < -2 ^ 63 ∨ 2 ^ 63 ≤ a.toInt.tdiv b.toInt) ↔
      a = BitVec.intMin 64 ∧ b = -1 := by
  have left_lt : a.toInt < 2 ^ 63 := BitVec.toInt_lt
  have left_ge : -2 ^ 63 ≤ a.toInt := BitVec.le_toInt a
  constructor
  · intro outside
    have size : (a.toInt.tdiv b.toInt).natAbs = a.toInt.natAbs / b.toInt.natAbs :=
      Int.natAbs_tdiv a.toInt b.toInt
    have small := Nat.div_le_self a.toInt.natAbs b.toInt.natAbs
    have least : a.toInt = -2 ^ 63 := by omega
    have unit : b.toInt.natAbs < 2 := by
      by_contra large
      have half : a.toInt.natAbs / b.toInt.natAbs ≤ a.toInt.natAbs / 2 :=
        Nat.div_le_div_left (by omega) (by decide)
      omega
    have nonzero : b.toInt ≠ 0 := fun zero => nonzero (BitVec.toInt_inj.mp zero)
    have negative : b.toInt = -1 := by
      obtain one | negative : b.toInt = 1 ∨ b.toInt = -1 := by omega
      · rw [one, Int.tdiv_one] at outside
        omega
      · exact negative
    exact ⟨BitVec.toInt_inj.mp least, BitVec.toInt_inj.mp negative⟩
  · rintro ⟨rfl, rfl⟩
    decide

/-- `cqo` and `idiv` divide as the operations of the IR do. -/
private theorem idivResult_cqo (a b : Word) :
    idivResult (if a.msb then -1 else 0) a b =
      if divisionTraps a b then none else some (a.sdiv b, a.srem b) := by
  have quotient : BitVec.ofInt 64 (a.toInt.tdiv b.toInt) = a.sdiv b := by
    apply BitVec.eq_of_toInt_eq
    rw [BitVec.toInt_ofInt, BitVec.toInt_sdiv]
  have remainder : BitVec.ofInt 64 (a.toInt.tmod b.toInt) = a.srem b := by
    rw [← BitVec.toInt_srem, BitVec.ofInt_toInt]
  have traps : (b = 0 ∨ a.toInt.tdiv b.toInt < -2 ^ 63 ∨ 2 ^ 63 ≤ a.toInt.tdiv b.toInt) ↔
      divisionTraps a b = true := by
    by_cases zero : b = 0
    · simp [divisionTraps, zero]
    · rw [tdiv_fits zero, divisionTraps, Bool.or_eq_true, Bool.and_eq_true]
      simp only [beq_iff_eq]
  simp only [idivResult, toInt_signExtended, quotient, remainder, traps]

private theorem clCount_eq (rcx : Word) : clCount rcx = shiftCount rcx := by
  unfold clCount shiftCount
  omega

end Arithmetic

/-- Only registers and flags differ, and not those that hold the stack. -/
structure AsmState.Kept (s s' : AsmState σ) : Prop where
  mem : s'.mem = s.mem
  outside : s'.outside = s.outside
  rsp : s'.regs .rsp = s.regs .rsp
  rbp : s'.regs .rbp = s.regs .rbp

section Operations

/-- The operations on two temporaries. -/
def IrOp.binary : IrOp → Bool
  | .add | .sub | .mul | .div | .mod | .and | .or | .shl | .shr
  | .eq | .ne | .gt | .ge | .lt | .le => true
  | _ => false

/-- The instructions apply the operation to `rax` and `rcx`. -/
def Computes (σ : Type) (op : IrOp) (body : List Instr) (result : Reg) : Prop :=
  ∀ (m : AsmWorld σ) (s : AsmState σ) (store : Store σ),
    match (op.value (s.regs .rax) (s.regs .rcx) : StoreM σ Word) store with
    | .ok value store' => store' = store.log (.value value) ∧
        ∃ s', execInstrs m body s = .ok s' ∧ s.Kept s' ∧ s'.regs result = value
    | .error halt _ => halt = .trap ∧ execInstrs m body s = .error .trap

private theorem computes_alu {op : IrOp} {alu : AluOp}
    (same : ∀ a b, (op.value a b : StoreM σ Word) = compute (alu.apply a b)) :
    Computes σ op [.alu alu .rax (.reg .rcx)] .rax := by
  intro m s store
  rw [same]
  exact ⟨rfl, _, rfl, ⟨rfl, rfl, rfl, rfl⟩, rfl⟩

private theorem computes_shift {op : IrOp} {shift : ShiftOp}
    (same : ∀ a b, (op.value a b : StoreM σ Word) = compute (shift.apply a (shiftCount b))) :
    Computes σ op [.shiftCl shift .rax] .rax := by
  intro m s store
  rw [same, ← clCount_eq]
  exact ⟨rfl, _, rfl, ⟨rfl, rfl, rfl, rfl⟩, rfl⟩

private theorem computes_cmp {op : IrOp} {cond : Cond} (set : setccFor op = some cond) :
    Computes σ op [.cmp .rax .rcx, .setAl cond, .movzxRaxAl] .rax := by
  intro m s store
  rw [value_setccFor set]
  refine ⟨rfl, _, rfl, ⟨rfl, rfl, rfl, rfl⟩, ?_⟩
  change ((_ ++ _ : Word).extractLsb' 0 8).setWidth 64 = _
  rw [BitVec.extractLsb'_append_eq_right, truth]
  split <;> rfl

private theorem computes_idiv {op : IrOp} {result : Reg} {pick : Word × Word → Word}
    (same : ∀ a b, (op.value a b : StoreM σ Word) =
      if divisionTraps a b then throw .trap else compute (pick (a.sdiv b, a.srem b)))
    (left : ∀ (s : AsmState σ) quotient remainder,
      (((s.setReg .rax quotient).setReg .rdx remainder).setFlags none).regs result =
        pick (quotient, remainder)) :
    Computes σ op [.cqo, .idiv .rcx] result := by
  intro m s store
  let extended := s.setReg .rdx (if (s.regs .rax).msb then -1 else 0)
  have divided : idivResult (extended.regs .rdx) (extended.regs .rax) (extended.regs .rcx) = _ :=
    idivResult_cqo (s.regs .rax) (s.regs .rcx)
  have ran : execInstrs m [.cqo, .idiv .rcx] s = execInstrs m [.idiv .rcx] extended := rfl
  rw [same, ran, execInstrs, Instr.exec, divided]
  cases divisionTraps (s.regs .rax) (s.regs .rcx) with
  | true => exact ⟨rfl, rfl⟩
  | false => exact ⟨rfl, _, rfl, ⟨rfl, rfl, rfl, rfl⟩, left _ _ _⟩

theorem asmOp_binary {op : IrOp} (binary : op.binary = true) : ∃ body result,
    Computes σ op body result ∧ ∀ d a b imm name allocI maxT,
      asmOp d op a b imm name allocI maxT = .ok (asmBinary d a b body result, allocI) := by
  cases op with
  | add | sub | and | or | mul =>
      exact ⟨_, _, computes_alu fun _ _ => rfl, fun _ _ _ _ _ _ _ => rfl⟩
  | shl | shr =>
      exact ⟨_, _, computes_shift fun _ _ => rfl, fun _ _ _ _ _ _ _ => rfl⟩
  | eq | ne | gt | ge | lt | le => exact ⟨_, _, computes_cmp rfl, fun _ _ _ _ _ _ _ => rfl⟩
  | div =>
      have computes : Computes σ .div [.cqo, .idiv .rcx] .rax :=
        computes_idiv (show ∀ a b, _ = if divisionTraps a b then throw .trap
          else compute (Prod.fst (a.sdiv b, a.srem b)) from fun _ _ => rfl) fun _ _ _ => rfl
      exact ⟨_, _, computes, fun _ _ _ _ _ _ _ => rfl⟩
  | mod =>
      have computes : Computes σ .mod [.cqo, .idiv .rcx] .rdx :=
        computes_idiv (show ∀ a b, _ = if divisionTraps a b then throw .trap
          else compute (Prod.snd (a.sdiv b, a.srem b)) from fun _ _ => rfl) fun _ _ _ => rfl
      exact ⟨_, _, computes, fun _ _ _ _ _ _ _ => rfl⟩
  | _ => cases binary

end Operations

section Sequences

variable {m : AsmWorld σ} {s : AsmState σ}

theorem addr_slot (bp : Word) (t : Nat) :
    bp + BitVec.ofInt 64 (-((t * 8 : Nat) : Int)) = stackWord bp t := by
  rw [stackWord, Nat.mul_comm, BitVec.ofInt_neg, BitVec.ofInt_natCast, BitVec.sub_eq_add_neg]

theorem exec_ld (reg : Reg) (t : Nat) :
    (ld reg t).exec m s = .ok (s.setReg reg (s.mem.load (stackWord (s.regs .rbp) t))) := by
  rw [← addr_slot]
  rfl

theorem exec_st (t : Nat) (reg : Reg) : (st t reg).exec m s =
    .ok { s with mem := s.mem.store (stackWord (s.regs .rbp) t) (s.regs reg) } := by
  rw [← addr_slot]
  rfl

end Sequences

end Trident
