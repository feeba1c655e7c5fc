import Trident.Amd64.Alignment

/-! Both sides of the calling convention: what a call passes and what the callee
finds, and the stack pointer that a function gives back when it returns. -/

set_option autoImplicit false

namespace Trident

open Foundation

variable {σ : Type} {m : AsmWorld σ} {s s' : AsmState σ}

/-- The registers that an instruction writes. -/
def Instr.writes : Instr → List Reg
  | .mov (.reg reg) _ => [reg]
  | .lea dst _ | .alu _ dst _ | .neg dst | .shiftCl _ dst => [dst]
  | .push _ => [.rsp]
  | .cqo => [.rdx]
  | .idiv _ => [.rax, .rdx]
  | .setAl _ | .movzxRaxAl | .xorEax => [.rax]
  | .leave => [.rsp, .rbp]
  | _ => []

theorem exec_writes {instr : Instr} {reg : Reg} (other : reg ∉ instr.writes)
    (ran : instr.exec m s = .ok s') : s'.regs reg = s.regs reg := by
  have set {s : AsmState σ} {dst : Reg} {value : Word} (unlike : reg ∉ [dst]) :
      (s.setReg dst value).regs reg = s.regs reg :=
    Function.update_of_ne (fun same => unlike (List.mem_singleton.mpr same)) _ _
  cases instr with
  | mov dst src =>
      cases dst with
      | reg dst =>
          cases ran
          exact set other
      | _ => cases ran <;> rfl
  | lea dst src => cases src <;> cases ran <;> exact set other
  | push src | neg dst | cqo | shiftCl op dst | movzxRaxAl | xorEax | alu op dst src =>
      cases ran
      exact set other
  | idiv src =>
      rw [Instr.exec] at ran
      split at ran <;> cases ran
      simp only [Instr.writes, List.mem_cons, List.not_mem_nil, or_false, not_or] at other
      exact (Function.update_of_ne other.2 _ _).trans (Function.update_of_ne other.1 _ _)
  | setAl cond =>
      rw [Instr.exec] at ran
      split at ran <;> cases ran
      exact set other
  | leave =>
      cases ran
      simp only [Instr.writes, List.mem_cons, List.not_mem_nil, or_false, not_or] at other
      exact (Function.update_of_ne other.2 _ _).trans (Function.update_of_ne other.1 _ _)
  | cmp | test =>
      cases ran
      rfl
  | _ => cases ran

/-- Only `leave` writes the base pointer, and it stands before each `ret`. -/
def LeavesLast : List Instr → Prop
  | [] => True
  | instr :: rest => (.rbp ∈ instr.writes → instr = .leave) ∧
      (rest.head? = some .ret ↔ instr = .leave) ∧ LeavesLast rest

theorem LeavesLast.append {first second : List Instr} (left : LeavesLast first)
    (right : LeavesLast second) (start : second.head? ≠ some .ret) :
    LeavesLast (first ++ second) := by
  induction first with
  | nil => exact right
  | cons instr first ih =>
      obtain ⟨keeps, last, rest⟩ := left
      refine ⟨keeps, ?_, ih rest⟩
      cases first with
      | nil =>
          refine ⟨fun ret => absurd ret start, fun leave => ?_⟩
          exact absurd (last.mpr leave) nofun
      | cons => exact last

theorem LeavesLast.suffix {code ahead : List Instr} (leaves : LeavesLast code)
    (suffix : ahead <:+ code) : LeavesLast ahead := by
  induction code with
  | nil =>
      obtain rfl := List.suffix_nil.mp suffix
      exact leaves
  | cons instr code ih =>
      obtain rfl | suffix := List.suffix_cons_iff.mp suffix
      · exact leaves
      · exact ih leaves.2.2 suffix

private theorem leavesLast_straight {instrs : List Instr}
    (straight : ∀ instr ∈ instrs, .rbp ∉ instr.writes ∧ instr ≠ .ret) : LeavesLast instrs := by
  induction instrs with
  | nil => trivial
  | cons instr instrs ih =>
      obtain ⟨⟨keeps, _⟩, rest⟩ := List.forall_mem_cons.mp straight
      refine ⟨fun writes => absurd writes keeps, ?_, ih rest⟩
      constructor
      · intro ret
        exact absurd rfl (rest .ret (List.mem_of_mem_head? ret)).2
      · rintro rfl
        exact absurd (List.mem_cons_of_mem _ List.mem_cons_self) keeps

section Code

variable {maxT allocI next : Nat} {lines code : List Instr}

theorem asmNode_leavesLast {node : IrNode}
    (accepted : asmNode node allocI maxT = .ok (lines, next)) :
    LeavesLast lines ∧ lines.head? ≠ some .ret ∧ lines ≠ [] := by
  cases node with
  | operation d op a b imm name =>
      have shape : (∀ instr ∈ lines, .rbp ∉ instr.writes ∧ instr ≠ .ret) ∧ lines ≠ [] := by
        cases op <;> cases accepted <;> simp [asmBinary, ld, st, slotOperand, Instr.writes]
      refine ⟨leavesLast_straight shape.1, fun ret => ?_, shape.2⟩
      exact (shape.1 .ret (List.mem_of_mem_head? ret)).2 rfl
  | label | jump | branch =>
      cases accepted
      simp [LeavesLast, Instr.writes, ld]
  | ret t =>
      cases accepted
      split <;> simp [LeavesLast, Instr.writes, ld]
  | call d name args =>
      cases accepted
      have before : ∀ instr ∈ asmArgs args, .rbp ∉ instr.writes ∧ instr ≠ .ret := by
        refine forall_asmArgs (by decide) (fun _ => by simp [ld, Instr.writes])
          (fun reg member t => ⟨fun same => ?_, by simp [ld]⟩) (by decide) args
        exact (argRegs_ne member).2.2 (List.mem_singleton.mp same).symm
      have after : ∀ instr ∈ asmResult d args.length, .rbp ∉ instr.writes ∧ instr ≠ .ret :=
        forall_asmResult (fun _ => by simp [Instr.writes])
          (by simp [st, slotOperand, Instr.writes]) args.length
      have straight : ∀ instr ∈ asmCall d name args, .rbp ∉ instr.writes ∧ instr ≠ .ret := by
        rw [asmCall_eq]
        exact List.forall_mem_append.mpr ⟨before, List.forall_mem_cons.mpr
          ⟨by simp [Instr.writes], after⟩⟩
      refine ⟨leavesLast_straight straight, fun ret => ?_, ?_⟩
      · exact (straight .ret (List.mem_of_mem_head? ret)).2 rfl
      · simp [asmCall]

private theorem asmNodes_leavesLast {nodes : List IrNode}
    (accepted : asmNodes maxT nodes allocI = .ok code) :
    LeavesLast code ∧ code.head? ≠ some .ret := by
  induction nodes generalizing allocI code with
  | nil =>
      cases accepted
      exact ⟨trivial, nofun⟩
  | cons node nodes ih =>
      obtain ⟨lines, next, rest, first, later, rfl⟩ := asmNodes_cons accepted
      obtain ⟨leaves, start, something⟩ := asmNode_leavesLast first
      obtain ⟨leaves', start'⟩ := ih later
      refine ⟨leaves.append leaves' start', ?_⟩
      rw [List.head?_append_of_ne_nil _ something]
      exact start

theorem asmPrologue_unlabelled (params maxT nAlloc id : Nat) :
    ∀ instr ∈ asmPrologue params maxT nAlloc, instr ≠ .label id := by
  intro instr member
  have steady := (asmPrologue_steady params maxT nAlloc).1 instr member
  rintro rfl
  exact steady

theorem instrTarget_append {first second : List Instr} {id : Nat}
    (unlabelled : ∀ instr ∈ first, instr ≠ .label id) :
    instrTarget id (first ++ second) = instrTarget id second := by
  refine List.dropWhile_append_of_pos fun instr member => ?_
  simpa using unlabelled instr member

/-- A position in the body of a function whose base pointer is `bp`. -/
def InBody (bp : Word) (body ahead : List Instr) (s : AsmState σ) : Prop :=
  ahead <:+ body ∧ (ahead.head? ≠ some .ret ∧ s.regs .rbp = bp ∨
    ahead.head? = some .ret ∧ s.regs .rsp = bp + 8)

private theorem instrTarget_start (id : Nat) (code : List Instr) :
    (instrTarget id code).head? ≠ some .ret := by
  intro ret
  have found := List.head?_dropWhile_not (fun instr : Instr => decide (instr ≠ .label id)) code
  rw [instrTarget] at ret
  rw [ret] at found
  simp at found

/-- The callees of a function give back the stack and the base pointer. -/
def AsmWorld.KeepsStack (m : AsmWorld σ) : Prop :=
  ∀ name entered returned, m.callee name entered = some returned →
    returned.regs .rsp = entered.regs .rsp + 8 ∧ returned.regs .rbp = entered.regs .rbp

variable {bp : Word} {body ahead following : List Instr}

theorem InBody.step (leaves : LeavesLast body)
    (targets : ∀ id, instrTarget id code <:+ body) (callees : m.KeepsStack)
    (inside : InBody bp body ahead s)
    (stepped : asmStep m code ahead s = .ok (.more following) s') :
    InBody bp body following s' := by
  obtain ⟨suffix, ⟨notRet, base⟩ | ⟨ret, _⟩⟩ := inside
  case inr =>
    obtain ⟨tail, rfl⟩ := List.head?_eq_some_iff.mp ret
    cases stepped
  cases ahead with
  | nil => cases stepped
  | cons instr rest =>
      obtain ⟨keeps, last, _⟩ := leaves.suffix suffix
      have onward : rest <:+ body := (List.suffix_cons _ _).trans suffix
      have stays {s' : AsmState σ} (notLeave : instr ≠ .leave)
          (kept : s'.regs .rbp = s.regs .rbp) : InBody bp body rest s' :=
        ⟨onward, .inl ⟨fun ret => notLeave (last.mp ret), kept.trans base⟩⟩
      have jumps (id : Nat) : InBody bp body (instrTarget id code) s :=
        ⟨targets id, .inl ⟨instrTarget_start id code, base⟩⟩
      have exec (straight : instr.Straight) (notLeave : instr ≠ .leave) :
          InBody bp body following s' := by
        obtain ⟨rfl, ran⟩ := exec_of_asmStep straight stepped
        exact stays notLeave (exec_writes (fun writes => notLeave (keeps writes)) ran)
      cases instr with
      | label id =>
          cases stepped
          exact stays (by simp) rfl
      | jmp id =>
          cases stepped
          exact jumps id
      | jnz id =>
          cases set : s.flags with
          | none =>
              rw [asmStep, bind_run_of_ok (get_run s), set] at stepped
              cases stepped
          | some flags =>
              rw [asmStep, bind_run_of_ok (get_run s), set] at stepped
              cases stepped
              cases flags.zero with
              | true => exact stays (by simp) rfl
              | false => exact jumps id
      | call name =>
          cases returned : m.callee name (s.push (m.codeAddr rest)) with
          | none =>
              simp only [asmStep, returned] at stepped
              cases stepped
          | some after =>
              simp only [asmStep, returned] at stepped
              cases stepped
              exact stays (by simp) (callees name _ s' returned).2
      | ret => cases stepped
      | leave =>
          cases stepped
          refine ⟨onward, .inr ⟨last.mpr rfl, ?_⟩⟩
          rw [← base]
          rfl
      | _ => exact exec trivial (by simp)

theorem InBody.done (inside : InBody bp body ahead s) {value : Word}
    (stepped : asmStep m code ahead s = .ok (.done value) s') : s'.regs .rsp = bp + 8 + 8 := by
  obtain ⟨rest, rfl, _, rfl⟩ := asmStep_done stepped
  obtain ⟨_, ⟨notRet, _⟩ | ⟨_, rsp⟩⟩ := inside
  · exact absurd rfl notRet
  · rw [← rsp]
    rfl

theorem InBody.path {n : Nat} {final : List Instr} (leaves : LeavesLast body)
    (targets : ∀ id, instrTarget id code <:+ body) (callees : m.KeepsStack)
    (path : Path (asmStep m code) n ahead s final s') (inside : InBody bp body ahead s) :
    InBody bp body final s' := by
  induction path with
  | refl => exact inside
  | cons stepped _ ih => exact ih (inside.step leaves targets callees stepped)

/-- A function that returns gives back the stack. -/
private theorem asmFunction_returns {params : Nat} {nodes : List IrNode}
    (accepted : asmFunction params nodes = .ok code) (callees : m.KeepsStack)
    (near : 2 * params + 2 < 2 ^ 61) {value : Word}
    (ends : Ends (asmStep m code) code s (.ok value s')) :
    s'.regs .rsp = s.regs .rsp + 8 := by
  obtain ⟨body, generated, rfl⟩ := asmFunction_ok accepted
  obtain ⟨leaves, start⟩ := asmNodes_leavesLast generated
  obtain ⟨framed, prologue, frame⟩ :=
    asmPrologue_runs (m := m) s (maxTemp params nodes) (countAllocs nodes) near
  have targets (id : Nat) : instrTarget id (asmPrologue params (maxTemp params nodes)
      (countAllocs nodes) ++ body) <:+ body := by
    rw [instrTarget_append (asmPrologue_unlabelled _ _ _ id)]
    exact List.dropWhile_suffix _
  obtain ⟨n, last, final, path, done⟩ := ends.after_path (path_instrs prologue)
  have inside : InBody (s.regs .rsp - 8) body body framed :=
    ⟨List.suffix_rfl, .inl ⟨start, frame.rbp⟩⟩
  rw [(inside.path leaves targets callees path).done done, BitVec.sub_add_cancel]

end Code

section Call

variable {code tail : List Instr} {bp : Word} {frame d : Nat} {name : CStr} {args : List Nat}

theorem AsmState.Passed.callee {called : AsmState σ} (passed : s.Passed called bp frame args)
    (near : 2 * args.length + 2 < 2 ^ 61) (returnAddr : Word) {nodes : List IrNode}
    (accepted : asmFunction args.length nodes = .ok code) : ∃ n body started,
      Path (asmStep m code) n code (called.push returnAddr) body started ∧
      asmNodes (maxTemp args.length nodes) nodes 1 = .ok body ∧
      ∀ i t, args[i]? = some t → started.mem.load (stackWord (started.regs .rbp) (i + 1)) =
        s.mem.load (stackWord bp t) := by
  obtain ⟨body, generated, rfl⟩ := asmFunction_ok accepted
  obtain ⟨started, prologue, framed⟩ := asmPrologue_runs (m := m) (called.push returnAddr)
    (maxTemp args.length nodes) (countAllocs nodes) near
  refine ⟨_, body, started, path_instrs prologue, generated, fun i t found => ?_⟩
  rw [framed.rbp, framed.params i (List.getElem?_eq_some_iff.mp found).1]
  exact passed.incoming (by omega) returnAddr found

theorem AsmState.Passed.back {called returned : AsmState σ} (passed : s.Passed called bp frame args)
    (near : frame + callWords args.length + 1 < 2 ^ 61) (inside : d ≤ frame)
    (returns : m.callee name (called.push (m.codeAddr (asmResult d args.length ++ tail))) =
      some returned) (rsp : returned.regs .rsp = called.regs .rsp)
    (rbp : returned.regs .rbp = called.regs .rbp) : ∃ n final,
      Path (asmStep m code) n (.call name :: (asmResult d args.length ++ tail)) called tail final ∧
      final.regs .rsp = stackWord bp frame ∧ final.regs .rbp = bp ∧
      (Mem.AgreeOn (StackRange bp 0 (frame + 1)) called.mem returned.mem →
        final.mem.load (stackWord bp d) = returned.regs .rax ∧
        ∀ t ≤ frame, t ≠ d → final.mem.load (stackWord bp t) = s.mem.load (stackWord bp t)) := by
  have call : asmStep m code (.call name :: (asmResult d args.length ++ tail)) called =
      .ok (.more (asmResult d args.length ++ tail)) returned := by
    simp only [asmStep, returns]
  obtain ⟨final, result, rbp', rsp', _, stored⟩ := @asmResult_runs _ m _ _ _ args.length d
    (rbp.trans passed.rbp) (rsp.trans passed.rsp)
  refine ⟨_, final, .cons call (path_instrs result), rsp', rbp', fun agree => ⟨?_, ?_⟩⟩
  · rw [stored, Mem.load_store]
  · intro t small other
    rw [stored, Mem.load_store_apart (stackWord_apart other.symm (by omega) (by omega)),
      ← agree.load ⟨t, Nat.zero_le t, by omega, rfl⟩]
    exact passed.changed.load fun other within => within.apart (by omega) (by omega) (by omega)

end Call

/-- The calling convention. A call in a frame of `frame` words reaches its `call`
with the arguments where the prologue of the callee, if it has as many parameters,
stores them from; a callee that gives back the stack leaves the stack pointer as
before the call, and the temporaries but the destination if it leaves the frame
alone. A function that returns does give back the stack, and one that is entered
with an aligned stack makes its calls so. -/
theorem asmCall_convention (m : AsmWorld σ) (callees : m.KeepsStack) :
    (∀ (code tail : List Instr) (s : AsmState σ) (frame d : Nat) (name : CStr) (args : List Nat),
      s.regs .rsp = stackWord (s.regs .rbp) frame → d ≤ frame → (∀ t ∈ args, t ≤ frame) →
      frame + 2 * args.length + 2 < 2 ^ 61 →
      ∃ n called rest,
        Path (asmStep m code) n (asmCall d name args ++ tail) s (.call name :: rest) called ∧
        (∀ nodes calleeCode, asmFunction args.length nodes = .ok calleeCode →
          ∃ n body started, Path (asmStep m calleeCode) n calleeCode
              (called.push (m.codeAddr rest)) body started ∧
            asmNodes (maxTemp args.length nodes) nodes 1 = .ok body ∧
            ∀ i t, args[i]? = some t →
              started.mem.load (stackWord (started.regs .rbp) (i + 1)) =
                s.mem.load (stackWord (s.regs .rbp) t)) ∧
        (∀ returned, m.callee name (called.push (m.codeAddr rest)) = some returned →
          ∃ n final, Path (asmStep m code) n (.call name :: rest) called tail final ∧
            final.regs .rsp = s.regs .rsp ∧ final.regs .rbp = s.regs .rbp ∧
            (Mem.AgreeOn (StackRange (s.regs .rbp) 0 (frame + 1)) called.mem returned.mem →
              final.mem.load (stackWord (s.regs .rbp) d) = returned.regs .rax ∧
              ∀ t ≤ frame, t ≠ d → final.mem.load (stackWord (s.regs .rbp) t) =
                s.mem.load (stackWord (s.regs .rbp) t)))) ∧
    (∀ params nodes code (s s' : AsmState σ) value, asmFunction params nodes = .ok code →
      2 * params + 2 < 2 ^ 61 → Ends (asmStep m code) code s (.ok value s') →
      s'.regs .rsp = s.regs .rsp + 8) ∧
    ∀ params nodes code (s called : AsmState σ) n name rest,
      asmFunction params nodes = .ok code → (s.regs .rsp).toNat % 16 = 8 →
      Path (asmStep m code) n code s (.call name :: rest) called →
      (called.regs .rsp).toNat % 16 = 0 ∧
        ((called.push (m.codeAddr rest)).regs .rsp).toNat % 16 = 8 := by
  refine ⟨?_, ?_, ?_⟩
  · intro code tail s frame d name args rsp inside args_inside near
    have words : callWords args.length ≤ args.length + 1 := by
      unfold callWords
      omega
    obtain ⟨called, before, passed⟩ :=
      asmArgs_runs (m := m) (s := s) rfl rsp args_inside (by omega)
    refine ⟨(asmArgs args).length, called, asmResult d args.length ++ tail, ?_, ?_, ?_⟩
    · rw [asmCall_eq, List.append_assoc]
      exact path_instrs before
    · intro nodes calleeCode accepted
      exact passed.callee (by omega) _ accepted
    · intro returned returns
      obtain ⟨back, base⟩ := callees name _ returned returns
      have level : returned.regs .rsp = called.regs .rsp :=
        back.trans (BitVec.sub_add_cancel _ _)
      rw [rsp]
      exact passed.back (by omega) inside returns level base
  · intro params nodes code s s' value accepted near ends
    exact asmFunction_returns accepted callees near ends
  · intro params nodes code s called n name rest accepted entry path
    have aligned : (called.regs .rsp).toNat % 16 = 0 :=
      asmFunction_aligned accepted (fun name entered returned returns =>
        (callees name entered returned returns).1) entry path
    refine ⟨aligned, ?_⟩
    change (called.regs .rsp - 8).toNat % 16 = 8
    bv_omega

/-- Callees that return at once, with a number in `rax`. -/
def stubWorld : AsmWorld Unit where
  address _ := 0
  codeAddr _ := 64
  callee _ s := some ((s.setReg .rax 5).setReg .rsp (s.regs .rsp + 8))

/-- A frame of eight words at 4096, of which the seventh holds 42. -/
def stubState : AsmState Unit where
  regs reg := if reg = .rbp then 4096 else 4096 - 64
  flags := none
  mem := fun addr => if addr = 4096 - 56 then 42 else 0
  outside := ()

theorem asmCall_convention_seven : ∃ n called rest,
    Path (asmStep stubWorld []) n (asmCall 8 none [1, 2, 3, 4, 5, 6, 7] ++ [.leave]) stubState
      (.call none :: rest) called ∧
    ∀ nodes calleeCode, asmFunction 7 nodes = .ok calleeCode → ∃ n body started,
      Path (asmStep stubWorld calleeCode) n calleeCode (called.push 64) body started ∧
      started.mem.load (stackWord (started.regs .rbp) 7) = 42 := by
  have keeps : stubWorld.KeepsStack := by
    rintro name entered returned ⟨⟩
    exact ⟨rfl, rfl⟩
  obtain ⟨call, _, _⟩ := asmCall_convention stubWorld keeps
  obtain ⟨n, called, rest, path, callee, _⟩ := call [] [.leave] stubState 8 8 none
    [1, 2, 3, 4, 5, 6, 7] (by decide) (by decide) (by decide) (by decide)
  refine ⟨n, called, rest, path, fun nodes calleeCode accepted => ?_⟩
  obtain ⟨k, body, started, entered, _, values⟩ := callee nodes calleeCode accepted
  refine ⟨k, body, started, entered, ?_⟩
  rw [values 6 7 rfl]
  decide +kernel

end Trident
