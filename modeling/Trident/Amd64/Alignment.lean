import Trident.Amd64.Calls

/-! The stack pointer in the code of a function. What the instructions from a
position on still add to it is known, so it is the same at every label, and a
multiple of sixteen at every call. -/

set_option autoImplicit false

namespace Trident

open Foundation

variable {σ : Type} {m : AsmWorld σ} {s s' : AsmState σ}

private theorem word_add_zero (value : Word) : value + 0 = value := BitVec.add_zero value

/-- What an instruction adds to the stack pointer. -/
def Instr.spChange : Instr → Word
  | .push _ => -8
  | .alu .add .rsp (.imm value) => BitVec.ofNat 64 value
  | .alu .sub .rsp (.imm value) => -BitVec.ofNat 64 value
  | _ => 0

def spChanges (instrs : List Instr) : Word :=
  instrs.foldr (fun instr sum => instr.spChange + sum) 0

@[simp] theorem spChanges_nil : spChanges [] = 0 := rfl

@[simp] theorem spChanges_cons (instr : Instr) (instrs : List Instr) :
    spChanges (instr :: instrs) = instr.spChange + spChanges instrs := rfl

@[simp] theorem spChanges_append (first second : List Instr) :
    spChanges (first ++ second) = spChanges first + spChanges second := by
  induction first with
  | nil => simp
  | cons instr first ih => simp [ih, BitVec.add_assoc]

/-- An instruction that passes control on and changes the stack pointer by
`spChange`. -/
def Instr.Steady : Instr → Prop
  | .mov (.reg reg) _ => reg ≠ .rsp
  | .mov _ _ => True
  | .lea dst _ => dst ≠ .rsp
  | .alu .add .rsp (.imm _) => True
  | .alu .sub .rsp (.imm _) => True
  | .alu _ dst _ => dst ≠ .rsp
  | .neg dst => dst ≠ .rsp
  | .shiftCl _ dst => dst ≠ .rsp
  | .push _ | .cqo | .idiv _ | .cmp .. | .setAl _ | .movzxRaxAl | .test .. | .xorEax => True
  | _ => False

private theorem setReg_rsp {reg : Reg} {value : Word} (other : reg ≠ .rsp) :
    (s.setReg reg value).regs .rsp = s.regs .rsp := Function.update_of_ne other.symm _ _

private theorem exec_alu_steady {op : AluOp} {dst : Reg} {src : Operand}
    (steady : (Instr.alu op dst src).Steady) (ran : (Instr.alu op dst src).exec m s = .ok s') :
    s'.regs .rsp = s.regs .rsp + (Instr.alu op dst src).spChange := by
  cases ran
  by_cases here : dst = .rsp
  · subst here
    cases op with
    | add =>
        cases src with
        | imm value => rfl
        | _ => exact absurd rfl steady
    | sub =>
        cases src with
        | imm value => exact BitVec.sub_eq_add_neg _ _
        | _ => exact absurd rfl steady
    | _ => exact absurd rfl steady
  · have same : (Instr.alu op dst src).spChange = 0 := by
      cases op <;> cases dst <;> first | rfl | exact absurd rfl here
    rw [same, word_add_zero]
    exact setReg_rsp here

private theorem exec_steady {instr : Instr} (steady : instr.Steady) (ran : instr.exec m s = .ok s') :
    s'.regs .rsp = s.regs .rsp + instr.spChange := by
  have same (kept : s'.regs .rsp = s.regs .rsp) : s'.regs .rsp = s.regs .rsp + 0 := by
    rw [kept, word_add_zero]
  cases instr with
  | mov dst src =>
      apply same
      cases dst with
      | reg dst =>
          cases ran
          exact setReg_rsp steady
      | _ => cases ran <;> rfl
  | lea dst src =>
      apply same
      cases src <;> cases ran <;> exact setReg_rsp steady
  | push src =>
      cases ran
      exact BitVec.sub_eq_add_neg _ _
  | alu op dst src => exact exec_alu_steady steady ran
  | neg dst | shiftCl op dst =>
      apply same
      cases ran
      exact setReg_rsp steady
  | idiv src =>
      apply same
      rw [Instr.exec] at ran
      split at ran <;> cases ran
      rfl
  | setAl cond =>
      apply same
      rw [Instr.exec] at ran
      split at ran <;> cases ran
      rfl
  | cqo | cmp | movzxRaxAl | test | xorEax =>
      apply same
      cases ran
      rfl
  | _ => exact steady.elim

theorem Instr.Steady.straight {instr : Instr} (steady : instr.Steady) : instr.Straight := by
  cases instr <;> first | exact steady.elim | trivial

/-- What holds of an instruction and those after it: at a label and where control
leaves the straight line nothing is left on the stack. -/
def Instr.Balances (rest : List Instr) : Instr → Prop
  | .label _ | .jmp _ | .jnz _ => spChanges rest = 0
  | .call _ => (spChanges rest).toNat % 16 = 0
  | .leave => ∃ tail, rest = .ret :: tail
  | .ret => True
  | instr => instr.Steady

def Balanced : List Instr → Prop
  | [] => True
  | instr :: rest => instr.Balances rest ∧ Balanced rest

theorem Instr.Steady.balances {instr : Instr} (steady : instr.Steady) (rest : List Instr) :
    instr.Balances rest := by
  cases instr <;> first | exact steady | exact steady.elim

theorem Instr.Balances.append {instr : Instr} {first second : List Instr}
    (balances : instr.Balances first) (level : spChanges second = 0) :
    instr.Balances (first ++ second) := by
  have same : spChanges (first ++ second) = spChanges first := by
    rw [spChanges_append, level, word_add_zero]
  cases instr with
  | label | jmp | jnz | call =>
      rw [Instr.Balances] at balances ⊢
      rw [same]
      exact balances
  | leave =>
      obtain ⟨tail, rfl⟩ := balances
      exact ⟨tail ++ second, rfl⟩
  | _ => exact balances

theorem Balanced.append {first second : List Instr} (left : Balanced first)
    (right : Balanced second) (level : spChanges second = 0) : Balanced (first ++ second) := by
  induction first with
  | nil => exact right
  | cons instr first ih => exact ⟨left.1.append level, ih left.2⟩

theorem Balanced.after_steady {first second : List Instr}
    (steady : ∀ instr ∈ first, instr.Steady) (right : Balanced second) :
    Balanced (first ++ second) := by
  induction first with
  | nil => exact right
  | cons instr first ih =>
      obtain ⟨head, rest⟩ := List.forall_mem_cons.mp steady
      exact ⟨head.balances _, ih rest⟩

theorem Balanced.suffix {code ahead : List Instr} (balanced : Balanced code)
    (suffix : ahead <:+ code) : Balanced ahead := by
  induction code with
  | nil =>
      obtain rfl := List.suffix_nil.mp suffix
      exact balanced
  | cons instr code ih =>
      obtain rfl | suffix := List.suffix_cons_iff.mp suffix
      · exact balanced
      · exact ih balanced.2 suffix

/-- Where the code stands in a function whose frame ends at `base`. -/
def Level (base : Word) (ahead : List Instr) (s : AsmState σ) : Prop :=
  s.regs .rsp + spChanges ahead = base ∨ ∃ tail, ahead = .ret :: tail

private theorem level_target {base : Word} {code : List Instr} (balanced : Balanced code) (id : Nat)
    (level : s.regs .rsp = base) : Level base (instrTarget id code) s := by
  have suffix : instrTarget id code <:+ code := List.dropWhile_suffix _
  refine .inl ?_
  cases target : instrTarget id code with
  | nil => rw [spChanges_nil, level, word_add_zero]
  | cons instr rest =>
      have found := List.head?_dropWhile_not (· ≠ .label id) code
      rw [instrTarget] at target
      rw [target] at found
      simp only [List.head?_cons, decide_eq_false_iff_not, ne_eq, not_not] at found
      subst found
      rw [instrTarget, target] at suffix
      have balances : spChanges rest = 0 := (balanced.suffix suffix).1
      rw [spChanges_cons, balances, level]
      exact word_add_zero base

/-- The stack pointer stays level when callees give it back. -/
theorem Level.step {base : Word} {code ahead next : List Instr} (balanced : Balanced code)
    (callees : ∀ name (entered returned : AsmState σ), m.callee name entered = some returned →
      returned.regs .rsp = entered.regs .rsp + 8)
    (suffix : ahead <:+ code) (level : Level base ahead s)
    (stepped : asmStep m code ahead s = .ok (.more next) s') :
    next <:+ code ∧ Level base next s' := by
  cases ahead with
  | nil => cases stepped
  | cons instr rest =>
      obtain ⟨balances, _⟩ := balanced.suffix suffix
      have onward : rest <:+ code := (List.suffix_cons _ _).trans suffix
      obtain level | ⟨tail, same⟩ := level
      case inr =>
        cases same
        cases stepped
      rw [spChanges_cons, ← BitVec.add_assoc] at level
      have jump (id : Nat) (nothing : spChanges rest = 0) (same : instr.spChange = 0) :
          instrTarget id code <:+ code ∧ Level base (instrTarget id code) s := by
        rw [nothing, same, word_add_zero, word_add_zero] at level
        exact ⟨List.dropWhile_suffix _, level_target balanced id level⟩
      have straight (steady : instr.Steady) : next <:+ code ∧ Level base next s' := by
        obtain ⟨rfl, ran⟩ := exec_of_asmStep steady.straight stepped
        refine ⟨onward, .inl ?_⟩
        rw [exec_steady steady ran]
        exact level
      have stays : instr.spChange = 0 → rest <:+ code ∧ Level base rest s := by
        intro same
        rw [same, word_add_zero] at level
        exact ⟨onward, .inl level⟩
      cases instr with
      | label id =>
          cases stepped
          exact stays rfl
      | jmp id =>
          cases stepped
          exact jump id balances rfl
      | jnz id =>
          cases set : s.flags with
          | none =>
              rw [asmStep, bind_run_of_ok (get_run s), set] at stepped
              cases stepped
          | some flags =>
              rw [asmStep, bind_run_of_ok (get_run s), set] at stepped
              cases stepped
              cases flags.zero with
              | true => exact stays rfl
              | false => exact jump id balances rfl
      | call name =>
          cases returned : m.callee name (s.push (m.codeAddr rest)) with
          | none =>
              simp only [asmStep, returned] at stepped
              cases stepped
          | some after =>
              simp only [asmStep, returned] at stepped
              cases stepped
              refine ⟨onward, .inl ?_⟩
              have back : s'.regs .rsp = s.regs .rsp - 8 + 8 := callees name _ s' returned
              rw [show (Instr.call name).spChange = 0 from rfl, word_add_zero] at level
              rw [back, BitVec.sub_add_cancel]
              exact level
      | ret => cases stepped
      | leave =>
          cases stepped
          exact ⟨onward, .inr balances⟩
      | _ =>
          exact straight balances

section Code

variable {maxT allocI next : Nat} {lines code : List Instr}

private theorem asmOp_steady {d a b imm : Nat} {op : IrOp} {name : CStr}
    (accepted : asmOp d op a b imm name allocI maxT = .ok (lines, next)) :
    (∀ instr ∈ lines, instr.Steady) ∧ spChanges lines = 0 := by
  cases op <;> cases accepted <;>
    exact ⟨by simp [asmBinary, ld, st, slotOperand, Instr.Steady], rfl⟩

theorem forall_asmArgs {P : Instr → Prop} (pad : P (.alu .sub .rsp (.imm 8)))
    (push : ∀ t, P (ld .rax t) ∧ P (.push .rax)) (load : ∀ reg ∈ argRegs, ∀ t, P (ld reg t))
    (clear : P .xorEax) (args : List Nat) : ∀ instr ∈ asmArgs args, P instr := by
  have padded : ∀ instr ∈ (if (args.length - nArgRegs) % 2 ≠ 0
      then [Instr.alu .sub .rsp (.imm 8)] else []), P instr := by
    split
    · exact List.forall_mem_singleton.mpr pad
    · exact List.forall_mem_nil _
  have pushes : ∀ instr ∈ asmPushArgs args, P instr := by
    intro instr member
    obtain ⟨t, _, here⟩ := List.mem_flatMap.mp member
    obtain rfl | here := List.mem_cons.mp here
    · exact (push t).1
    · obtain rfl := List.mem_singleton.mp here
      exact (push t).2
  have loads : ∀ instr ∈ asmLoadArgs args, P instr := by
    intro instr member
    obtain ⟨⟨reg, t⟩, here, rfl⟩ := List.mem_map.mp member
    exact load reg (List.of_mem_zip here).1 t
  rw [asmArgs]
  exact List.forall_mem_append.mpr ⟨List.forall_mem_append.mpr ⟨List.forall_mem_append.mpr
    ⟨padded, pushes⟩, loads⟩, List.forall_mem_singleton.mpr clear⟩

theorem forall_asmResult {P : Instr → Prop} (pop : ∀ value, P (.alu .add .rsp (.imm value)))
    {tempDest : Nat} (store : P (st tempDest .rax)) (argc : Nat) :
    ∀ instr ∈ asmResult tempDest argc, P instr := by
  rw [asmResult]
  split
  · exact List.forall_mem_cons.mpr ⟨pop _, List.forall_mem_singleton.mpr store⟩
  · exact List.forall_mem_singleton.mpr store

private theorem asmArgs_steady (args : List Nat) : ∀ instr ∈ asmArgs args, instr.Steady :=
  forall_asmArgs trivial (fun _ => ⟨show Reg.rax ≠ .rsp by decide, trivial⟩)
    (fun _ member _ => (argRegs_ne member).2.1) trivial args

private theorem asmResult_steady (tempDest argc : Nat) :
    ∀ instr ∈ asmResult tempDest argc, instr.Steady :=
  forall_asmResult (fun _ => trivial) trivial argc

private theorem spChanges_asmResult (tempDest argc : Nat) :
    spChanges (asmResult tempDest argc) = BitVec.ofNat 64 (8 * callWords argc) := by
  rw [asmResult, spChanges_append, Nat.mul_comm]
  have last : spChanges [st tempDest .rax] = 0 := rfl
  rw [last, word_add_zero]
  split
  case isTrue =>
    rw [spChanges_cons, spChanges_nil, word_add_zero]
    rfl
  case isFalse none =>
    rw [show callWords argc = 0 by omega]
    rfl

private theorem spChanges_pushes (ts : List Nat) :
    spChanges (ts.flatMap fun t => [ld .rax t, .push .rax]) = -BitVec.ofNat 64 (8 * ts.length) := by
  induction ts with
  | nil => rfl
  | cons t ts ih =>
      have step : spChanges [ld .rax t, .push .rax] = -8#64 := by
        simp [Instr.spChange, ld]
      rw [List.flatMap_cons, spChanges_append, ih, step, List.length_cons, Nat.mul_succ,
        BitVec.ofNat_add, BitVec.neg_add, BitVec.sub_eq_add_neg, BitVec.add_comm]

private theorem spChanges_loads (loads : List (Reg × Nat)) :
    spChanges (loads.map fun arg => ld arg.1 arg.2) = 0 := by
  induction loads with
  | nil => rfl
  | cons first loads ih =>
      rw [List.map_cons, spChanges_cons, ih]
      rfl

private theorem spChanges_asmArgs (args : List Nat) :
    spChanges (asmArgs args) = -BitVec.ofNat 64 (8 * callWords args.length) := by
  have last : spChanges [.xorEax] = 0 := rfl
  have pad : spChanges (if (args.length - nArgRegs) % 2 ≠ 0
      then [Instr.alu .sub .rsp (.imm 8)] else []) =
        -BitVec.ofNat 64 (8 * ((args.length - nArgRegs) % 2)) := by
    split
    case isTrue odd =>
      rw [show (args.length - nArgRegs) % 2 = 1 by omega]
      rfl
    case isFalse even =>
      rw [show (args.length - nArgRegs) % 2 = 0 by omega]
      rfl
  rw [asmArgs, spChanges_append, spChanges_append, spChanges_append, pad, asmPushArgs,
    spChanges_pushes, asmLoadArgs, spChanges_loads, last, word_add_zero, word_add_zero,
    List.length_reverse, List.length_drop, callWords]
  bv_omega

private theorem asmNode_balanced {node : IrNode}
    (accepted : asmNode node allocI maxT = .ok (lines, next)) :
    Balanced lines ∧ spChanges lines = 0 := by
  cases node with
  | operation =>
      obtain ⟨steady, level⟩ := asmOp_steady accepted
      have balanced : Balanced (lines ++ []) := .after_steady steady trivial
      rw [List.append_nil] at balanced
      exact ⟨balanced, level⟩
  | label | jump | branch =>
      cases accepted
      exact ⟨by simp [Balanced, Instr.Balances, Instr.Steady, Instr.spChange, ld], rfl⟩
  | ret t =>
      cases accepted
      split <;> exact ⟨by simp [Balanced, Instr.Balances, Instr.Steady, ld], rfl⟩
  | call d name args =>
      cases accepted
      rw [asmCall_eq]
      constructor
      · have result : Balanced (asmResult d args.length ++ []) :=
          .after_steady (asmResult_steady d args.length) trivial
        rw [List.append_nil] at result
        refine .after_steady (asmArgs_steady args) ⟨?_, result⟩
        rw [Instr.Balances, spChanges_asmResult, callWords, BitVec.toNat_ofNat]
        omega
      · rw [spChanges_append, spChanges_cons, spChanges_asmArgs, spChanges_asmResult,
          show (Instr.call name).spChange = 0 from rfl]
        bv_omega

private theorem asmNodes_balanced {nodes : List IrNode}
    (accepted : asmNodes maxT nodes allocI = .ok code) : Balanced code ∧ spChanges code = 0 := by
  induction nodes generalizing allocI code with
  | nil =>
      cases accepted
      exact ⟨trivial, rfl⟩
  | cons node nodes ih =>
      obtain ⟨lines, next, rest, first, later, rfl⟩ := asmNodes_cons accepted
      obtain ⟨balanced, level⟩ := asmNode_balanced first
      obtain ⟨balanced', level'⟩ := ih later
      refine ⟨balanced.append balanced' level', ?_⟩
      rw [spChanges_append, level, level', word_add_zero]

private theorem asmParams_steady (params i : Nat) :
    (∀ instr ∈ asmParams params i, instr.Steady) ∧ spChanges (asmParams params i) = 0 := by
  induction params generalizing i with
  | zero => exact ⟨List.forall_mem_nil _, rfl⟩
  | succ params ih =>
      obtain ⟨steady, level⟩ := ih (i + 1)
      have one : (∀ instr ∈ asmParam i, instr.Steady) ∧ spChanges (asmParam i) = 0 := by
        unfold asmParam
        cases argRegs[i]? <;> exact ⟨by simp [st, slotOperand, Instr.Steady], rfl⟩
      refine ⟨List.forall_mem_append.mpr ⟨one.1, steady⟩, ?_⟩
      rw [asmParams, spChanges_append, one.2, level, word_add_zero]

theorem asmPrologue_steady (params maxT nAlloc : Nat) :
    (∀ instr ∈ asmPrologue params maxT nAlloc, instr.Steady) ∧
      spChanges (asmPrologue params maxT nAlloc) =
        -BitVec.ofNat 64 (8 + 8 * frameWords maxT nAlloc) := by
  obtain ⟨steady, level⟩ := asmParams_steady params 0
  have size := frameSize_eq maxT nAlloc
  have start : (∀ instr ∈ [Instr.push .rbp, .mov (.reg .rbp) (.reg .rsp)], instr.Steady) ∧
      spChanges [.push .rbp, .mov (.reg .rbp) (.reg .rsp)] = -8#64 := by
    simp [Instr.Steady, Instr.spChange]
  have reserve : (∀ instr ∈ (if frameSize maxT nAlloc ≠ 0
      then [Instr.alu .sub .rsp (.imm (frameSize maxT nAlloc))] else []), instr.Steady) ∧
      spChanges (if frameSize maxT nAlloc ≠ 0
        then [Instr.alu .sub .rsp (.imm (frameSize maxT nAlloc))] else []) =
          -BitVec.ofNat 64 (8 * frameWords maxT nAlloc) := by
    split
    case isTrue =>
      rw [spChanges_cons, spChanges_nil, word_add_zero, ← size]
      exact ⟨List.forall_mem_singleton.mpr trivial, rfl⟩
    case isFalse none =>
      rw [show frameWords maxT nAlloc = 0 by omega]
      exact ⟨List.forall_mem_nil _, rfl⟩
  rw [asmPrologue]
  refine ⟨List.forall_mem_append.mpr ⟨List.forall_mem_append.mpr ⟨start.1, reserve.1⟩, steady⟩, ?_⟩
  rw [spChanges_append, spChanges_append, start.2, reserve.2, level, word_add_zero,
    BitVec.ofNat_add, BitVec.neg_add, BitVec.sub_eq_add_neg]

private theorem asmFunction_balanced {params : Nat} {nodes : List IrNode}
    (accepted : asmFunction params nodes = .ok code) : Balanced code ∧
      spChanges code =
        -BitVec.ofNat 64 (8 + 8 * frameWords (maxTemp params nodes) (countAllocs nodes)) := by
  obtain ⟨body, generated, rfl⟩ := asmFunction_ok accepted
  obtain ⟨steady, change⟩ := asmPrologue_steady params (maxTemp params nodes) (countAllocs nodes)
  obtain ⟨balanced, level⟩ := asmNodes_balanced generated
  refine ⟨.after_steady steady balanced, ?_⟩
  rw [spChanges_append, level, change, word_add_zero]

private theorem level_path {base : Word} {ahead last : List Instr} {n : Nat} (balanced : Balanced code)
    (callees : ∀ name (entered returned : AsmState σ), m.callee name entered = some returned →
      returned.regs .rsp = entered.regs .rsp + 8)
    (path : Path (asmStep m code) n ahead s last s') (suffix : ahead <:+ code)
    (level : Level base ahead s) : last <:+ code ∧ Level base last s' := by
  induction path with
  | refl => exact ⟨suffix, level⟩
  | cons stepped _ ih =>
      obtain ⟨suffix, level⟩ := level.step balanced callees suffix stepped
      exact ih suffix level

/-- The stack is aligned at every call that a function executes. -/
theorem asmFunction_aligned {params n : Nat} {nodes : List IrNode}
    (accepted : asmFunction params nodes = .ok code)
    (callees : ∀ name (entered returned : AsmState σ), m.callee name entered = some returned →
      returned.regs .rsp = entered.regs .rsp + 8)
    (entry : (s.regs .rsp).toNat % 16 = 8) {name : CStr} {rest : List Instr}
    (path : Path (asmStep m code) n code s (.call name :: rest) s') :
    (s'.regs .rsp).toNat % 16 = 0 := by
  obtain ⟨balanced, change⟩ := asmFunction_balanced accepted
  obtain ⟨suffix, level | ⟨_, ⟨⟩⟩⟩ :=
    level_path balanced callees path List.suffix_rfl (.inl rfl)
  have left : (spChanges rest).toNat % 16 = 0 := (balanced.suffix suffix).1
  have even : frameWords (maxTemp params nodes) (countAllocs nodes) % 2 = 0 := by
    unfold frameWords
    omega
  rw [spChanges_cons, show (Instr.call name).spChange = 0 from rfl, change] at level
  generalize frameWords (maxTemp params nodes) (countAllocs nodes) = words at level even
  generalize spChanges rest = pushed at level left
  generalize s.regs .rsp = entry_sp at level entry
  generalize s'.regs .rsp = sp at level ⊢
  have sum := congrArg BitVec.toNat level
  have none : BitVec.toNat (0 : Word) = 0 := rfl
  simp only [none, BitVec.toNat_add, BitVec.toNat_neg, BitVec.toNat_ofNat] at sum
  omega

end Code

end Trident
