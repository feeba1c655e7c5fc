import Trident.Amd64.Frame

/-! The code of a call: the arguments it pushes and loads, as the prologue of the
callee finds them, and the stack pointer before and after it. -/

set_option autoImplicit false

namespace Trident

open Foundation

variable {σ : Type} {m : AsmWorld σ} {s : AsmState σ} {bp : Word}

/-- The words that a call takes on the stack for its arguments, with the padding. -/
def callWords (argc : Nat) : Nat := argc - nArgRegs + (argc - nArgRegs) % 2

private theorem asmPushArgs_runs {ts : List Nat} {j : Nat} (rbp : s.regs .rbp = bp)
    (rsp : s.regs .rsp = stackWord bp j) (inside : ∀ t ∈ ts, t ≤ j)
    (near : j + ts.length < 2 ^ 61) :
    ∃ s', execInstrs m (ts.reverse.flatMap fun t => [ld .rax t, .push .rax]) s = .ok s' ∧
      s'.regs .rbp = bp ∧ s'.regs .rsp = stackWord bp (j + ts.length) ∧ s'.outside = s.outside ∧
      Mem.ChangesOnly (StackRange bp (j + 1) (j + ts.length + 1)) s.mem s'.mem ∧
      ∀ i t, ts[i]? = some t →
        s'.mem.load (stackWord bp (j + ts.length - i)) = s.mem.load (stackWord bp t) := by
  induction ts with
  | nil => exact ⟨s, rfl, rbp, rsp, rfl, .refl _ _, nofun⟩
  | cons t ts ih =>
      rw [List.length_cons] at near
      obtain ⟨middle, pushed, rbp', rsp', outside, changed, loaded⟩ :=
        ih (fun t member => inside t (List.mem_cons_of_mem _ member)) (by omega)
      let value := middle.mem.load (stackWord bp t)
      have next : stackWord bp (j + ts.length) - 8 = stackWord bp (j + (ts.length + 1)) :=
        stackWord_sub bp _ 1
      have step : execInstrs m [ld .rax t, .push .rax] middle =
          .ok ((middle.setReg .rax value).push value) := by
        rw [execInstrs, exec_ld, rbp']
        rfl
      have stored : ((middle.setReg .rax value).push value).mem =
          middle.mem.store (stackWord bp (j + (ts.length + 1))) value := by
        rw [← next, ← rsp']
        rfl
      refine ⟨(middle.setReg .rax value).push value, ?_, ?_, ?_, ?_, ?_, fun i t' found => ?_⟩
      · rw [List.reverse_cons, List.flatMap_append, execInstrs_append pushed]
        exact step
      · exact rbp'
      · rw [List.length_cons, ← next, ← rsp']
        rfl
      · exact outside
      · rw [stored]
        refine (changed.mono fun _ inside => ?_).trans (.store ?_)
        · exact inside.mono (Nat.le_refl _) (by simp)
        · exact ⟨_, by omega, by simp, rfl⟩
      · rw [stored]
        cases i with
        | zero =>
            cases found
            rw [List.length_cons, Nat.sub_zero, Mem.load_store]
            have low := inside t List.mem_cons_self
            exact changed.load fun other inside => inside.apart (by omega) (by omega) (by omega)
        | succ i =>
            have found : ts[i]? = some t' := found
            have small := (List.getElem?_eq_some_iff.mp found).1
            rw [List.length_cons, show j + (ts.length + 1) - (i + 1) = j + ts.length - i by omega,
              Mem.load_store_apart (stackWord_apart (by omega) (by omega) (by omega))]
            exact loaded i t' found

private theorem asmLoads_runs {loads : List (Reg × Nat)} (rbp : s.regs .rbp = bp)
    (other : Reg.rbp ∉ loads.map Prod.fst) (nodup : (loads.map Prod.fst).Nodup) :
    ∃ s', execInstrs m (loads.map fun arg => ld arg.1 arg.2) s = .ok s' ∧ s'.mem = s.mem ∧
      s'.outside = s.outside ∧ (∀ reg, reg ∉ loads.map Prod.fst → s'.regs reg = s.regs reg) ∧
      ∀ reg t, (reg, t) ∈ loads → s'.regs reg = s.mem.load (stackWord bp t) := by
  induction loads generalizing s with
  | nil => exact ⟨s, rfl, rfl, rfl, fun _ _ => rfl, nofun⟩
  | cons first loads ih =>
      obtain ⟨reg, t⟩ := first
      obtain ⟨fresh, nodup⟩ := List.nodup_cons.mp nodup
      obtain ⟨notFirst, notRest⟩ := not_or.mp fun member => other (List.mem_cons.mpr member)
      let loaded := s.setReg reg (s.mem.load (stackWord bp t))
      have base : loaded.regs .rbp = bp := by
        change Function.update s.regs reg _ .rbp = bp
        rw [Function.update_of_ne notFirst, rbp]
      obtain ⟨s', ran, mem, outside, kept, values⟩ := ih base notRest nodup
      refine ⟨s', ?_, mem, outside, fun reg' unlike => ?_, fun reg' t' member => ?_⟩
      · rw [List.map_cons, execInstrs, exec_ld, rbp]
        exact ran
      · obtain ⟨notFirst, notRest⟩ := not_or.mp fun member => unlike (List.mem_cons.mpr member)
        rw [kept reg' notRest]
        exact Function.update_of_ne notFirst _ _
      · obtain same | later := List.mem_cons.mp member
        · cases same
          rw [kept reg fresh]
          exact Function.update_self ..
        · exact values reg' t' later

private theorem zip_fst_prefix {α β : Type} (left : List α) (right : List β) :
    (left.zip right).map Prod.fst <+: left := by
  induction left generalizing right with
  | nil => exact List.prefix_rfl
  | cons first left ih =>
      cases right with
      | nil => exact List.nil_prefix
      | cons second right => exact List.cons_prefix_cons.mpr ⟨rfl, ih right⟩

/-- The instructions of a call before its `call`. -/
def asmArgs (args : List Nat) : List Instr :=
  (if (args.length - nArgRegs) % 2 ≠ 0 then [.alu .sub .rsp (.imm 8)] else []) ++
    asmPushArgs args ++ asmLoadArgs args ++ [.xorEax]

/-- Those after it. -/
def asmResult (tempDest argc : Nat) : List Instr :=
  (if callWords argc ≠ 0 then [.alu .add .rsp (.imm (callWords argc * 8))] else []) ++
    [st tempDest .rax]

theorem asmCall_eq (tempDest : Nat) (name : CStr) (args : List Nat) :
    asmCall tempDest name args = asmArgs args ++ .call name :: asmResult tempDest args.length := by
  have stack : (if args.length > nArgRegs then args.length - nArgRegs else 0) =
      args.length - nArgRegs := by
    split
    case isTrue => rfl
    case isFalse => omega
  have pad : (if (args.length - nArgRegs) % 2 ≠ 0 then 1 else 0) =
      (args.length - nArgRegs) % 2 := by
    split
    case isTrue => omega
    case isFalse => omega
  have padded : (if (args.length - nArgRegs) % 2 ≠ 0 then [Instr.alu .sub .rsp (.imm 8)] else []) =
      if (if (args.length - nArgRegs) % 2 ≠ 0 then 1 else 0) ≠ 0
        then [Instr.alu .sub .rsp (.imm 8)] else [] := by
    rw [pad]
  simp only [asmCall, stack]
  rw [← padded, pad, asmArgs, asmResult, callWords]
  simp

/-- The state at the `call` of a function with these arguments, of a caller that
has `frame` words below its base pointer. -/
structure AsmState.Passed (s s' : AsmState σ) (bp : Word) (frame : Nat) (args : List Nat) :
    Prop where
  rbp : s'.regs .rbp = bp
  rsp : s'.regs .rsp = stackWord bp (frame + callWords args.length)
  outside : s'.outside = s.outside
  changed : Mem.ChangesOnly (StackRange bp (frame + 1) (frame + callWords args.length + 1))
    s.mem s'.mem
  args : ∀ i t, args[i]? = some t → (match argRegs[i]? with
    | some reg => s'.regs reg
    | none => s'.mem.load (s'.regs .rsp + BitVec.ofNat 64 (8 * (i - nArgRegs)))) =
      s.mem.load (stackWord bp t)

theorem asmArgs_runs {frame : Nat} {args : List Nat} (rbp : s.regs .rbp = bp)
    (rsp : s.regs .rsp = stackWord bp frame) (inside : ∀ t ∈ args, t ≤ frame)
    (near : frame + callWords args.length < 2 ^ 61) :
    ∃ s', execInstrs m (asmArgs args) s = .ok s' ∧ s.Passed s' bp frame args := by
  have words : callWords args.length = (args.length - nArgRegs) % 2 + (args.length - nArgRegs) :=
    Nat.add_comm _ _
  obtain ⟨padded, pad, mem, outside, rbp', rsp'⟩ : ∃ padded, execInstrs m
      (if (args.length - nArgRegs) % 2 ≠ 0 then [.alu .sub .rsp (.imm 8)] else []) s =
        .ok padded ∧ padded.mem = s.mem ∧ padded.outside = s.outside ∧ padded.regs .rbp = bp ∧
      padded.regs .rsp = stackWord bp (frame + (args.length - nArgRegs) % 2) := by
    split
    case isTrue odd =>
      refine ⟨_, rfl, rfl, rfl, rbp, ?_⟩
      have one : (args.length - nArgRegs) % 2 = 1 := by omega
      rw [one, ← stackWord_sub bp frame 1, ← rsp]
      rfl
    case isFalse even =>
      refine ⟨s, rfl, rfl, rfl, rbp, ?_⟩
      rw [show (args.length - nArgRegs) % 2 = 0 by omega]
      exact rsp
  obtain ⟨pushed, push, rbp, rsp, outside', changed, stacked⟩ := asmPushArgs_runs (m := m) rbp' rsp'
    (fun t member => Nat.le_add_right_of_le (inside t (List.mem_of_mem_drop member)))
    (show _ + (args.drop nArgRegs).length < 2 ^ 61 by rw [List.length_drop]; omega)
  have regs := zip_fst_prefix argRegs args
  obtain ⟨loaded, load, mem', outside'', kept, values⟩ := asmLoads_runs (m := m) rbp
    (fun member => (argRegs_ne (regs.subset member)).2.2 rfl) (regs.sublist.nodup (by decide))
  rw [mem] at changed stacked
  have total : frame + (args.length - nArgRegs) % 2 + (args.drop nArgRegs).length =
      frame + callWords args.length := by
    rw [List.length_drop]
    omega
  rw [total] at rsp changed stacked
  have top : loaded.regs .rsp = stackWord bp (frame + callWords args.length) :=
    (kept .rsp fun member => (argRegs_ne (regs.subset member)).2.1 rfl).trans rsp
  refine ⟨(loaded.setReg .rax 0).setFlags none, ?_, ?_, top, ?_, ?_, fun i t found => ?_⟩
  · rw [asmArgs, List.append_assoc, List.append_assoc, execInstrs_append pad, asmPushArgs,
      execInstrs_append push, asmLoadArgs, execInstrs_append load]
    rfl
  · exact (kept .rbp fun member => (argRegs_ne (regs.subset member)).2.2 rfl).trans rbp
  · exact outside''.trans (outside'.trans outside)
  · change Mem.ChangesOnly _ s.mem loaded.mem
    rw [mem']
    exact changed.mono fun _ within => within.mono (by omega) (by omega)
  · have small := inside t (List.mem_of_getElem? found)
    cases reg? : argRegs[i]? with
    | some reg =>
        obtain ⟨notAx, _, _⟩ := argRegs_ne (List.mem_of_getElem? reg?)
        have member : (reg, t) ∈ argRegs.zip args :=
          List.mem_of_getElem? (List.getElem?_zip_eq_some.mpr ⟨reg?, found⟩)
        change Function.update loaded.regs .rax 0 reg = _
        rw [Function.update_of_ne notAx, values reg t member]
        exact changed.load fun other within => within.apart (by omega) (by omega) (by omega)
    | none =>
        have beyond : nArgRegs ≤ i := List.getElem?_eq_none_iff.mp reg?
        have dropped : (args.drop nArgRegs)[i - nArgRegs]? = some t := by
          rw [List.getElem?_drop, show nArgRegs + (i - nArgRegs) = i by omega]
          exact found
        have within := (List.getElem?_eq_some_iff.mp found).1
        change loaded.mem.load (loaded.regs .rsp + _) = _
        rw [top, stackWord_add bp _ _ (by omega), mem']
        exact stacked _ t dropped

private theorem sub_add_word (sp : Word) (k : Nat) :
    sp - 8 + BitVec.ofNat 64 (8 * (k + 1)) = sp + BitVec.ofNat 64 (8 * k) := by
  have split : BitVec.ofNat 64 (8 * (k + 1)) = 8 + BitVec.ofNat 64 (8 * k) := by
    rw [Nat.mul_succ, Nat.add_comm, BitVec.ofNat_add]
    rfl
  rw [split, ← BitVec.add_assoc, BitVec.sub_add_cancel]

private theorem sub_sub_add_words (sp : Word) (k : Nat) :
    sp - 8 - 8 + BitVec.ofNat 64 (16 + k * 8) = sp + BitVec.ofNat 64 (8 * k) := by
  have split : BitVec.ofNat 64 (16 + k * 8) = 8 + 8 + BitVec.ofNat 64 (8 * k) := by
    rw [Nat.mul_comm, BitVec.ofNat_add]
    rfl
  rw [split, ← BitVec.add_assoc, ← BitVec.add_assoc, BitVec.sub_add_cancel, BitVec.sub_add_cancel]

/-- The callee of a call finds the arguments where its prologue looks for them. -/
theorem AsmState.Passed.incoming {s' : AsmState σ} {frame : Nat} {args : List Nat}
    (passed : s.Passed s' bp frame args) (near : args.length < 2 ^ 61) (returnAddr : Word)
    {i t : Nat} (found : args[i]? = some t) :
    (s'.push returnAddr).incoming ((s'.push returnAddr).regs .rsp - 8) i =
      s.mem.load (stackWord bp t) := by
  have value := passed.args i t found
  have small := (List.getElem?_eq_some_iff.mp found).1
  unfold AsmState.incoming
  cases reg? : argRegs[i]? with
  | some reg =>
      rw [reg?] at value
      obtain ⟨_, notSp, _⟩ := argRegs_ne (List.mem_of_getElem? reg?)
      rw [← value]
      exact Function.update_of_ne notSp _ _
  | none =>
      rw [reg?] at value
      have apart : Mem.Apart (stackWord (s'.regs .rsp - 8) 0)
          (s'.regs .rsp - 8 + BitVec.ofNat 64 (8 * (i - nArgRegs + 1))) :=
        stackWord_apart_above (Nat.succ_pos _) (by omega)
      rw [stackWord_zero, sub_add_word] at apart
      have rsp : (s'.push returnAddr).regs .rsp = s'.regs .rsp - 8 := rfl
      have mem : (s'.push returnAddr).mem = s'.mem.store (s'.regs .rsp - 8) returnAddr := rfl
      rw [rsp, mem]
      dsimp only
      rw [sub_sub_add_words, Mem.load_store_apart apart]
      exact value

theorem asmResult_runs {frame argc : Nat} (tempDest : Nat) (rbp : s.regs .rbp = bp)
    (rsp : s.regs .rsp = stackWord bp (frame + callWords argc)) :
    ∃ s', execInstrs m (asmResult tempDest argc) s = .ok s' ∧ s'.regs .rbp = bp ∧
      s'.regs .rsp = stackWord bp frame ∧ s'.outside = s.outside ∧
      s'.mem = s.mem.store (stackWord bp tempDest) (s.regs .rax) := by
  obtain ⟨popped, pop, mem, outside, rax, rbp', rsp'⟩ : ∃ popped, execInstrs m
      (if callWords argc ≠ 0 then [.alu .add .rsp (.imm (callWords argc * 8))] else []) s =
        .ok popped ∧ popped.mem = s.mem ∧ popped.outside = s.outside ∧
      popped.regs .rax = s.regs .rax ∧ popped.regs .rbp = bp ∧
      popped.regs .rsp = stackWord bp frame := by
    split
    case isTrue =>
      refine ⟨_, rfl, rfl, rfl, rfl, rbp, ?_⟩
      change s.regs .rsp + BitVec.ofNat 64 (callWords argc * 8) = _
      rw [rsp, Nat.mul_comm, stackWord_add bp _ _ (Nat.le_add_left _ _), Nat.add_sub_cancel]
    case isFalse none =>
      rw [show callWords argc = 0 by omega] at rsp
      exact ⟨s, rfl, rfl, rfl, rfl, rbp, rsp⟩
  have store : execInstrs m [st tempDest .rax] popped =
      .ok { popped with mem := popped.mem.store (stackWord bp tempDest) (popped.regs .rax) } := by
    rw [execInstrs, exec_st, rbp']
    rfl
  refine ⟨_, (execInstrs_append pop).trans store, rbp', rsp', outside, ?_⟩
  rw [← mem, ← rax]

end Trident
