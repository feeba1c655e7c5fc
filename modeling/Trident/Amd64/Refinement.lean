import Trident.Amd64.Activation
import Trident.Amd64.Convention
import Trident.Ir.Trace

/-! The code of a function follows the IR machine: node by node, the slots hold
what the temporaries hold, and the memory accesses of the program go to the same
words. -/

set_option autoImplicit false

namespace Trident

open Foundation

variable {σ : Type}

/-! What is asked of the program around the function, and of its accesses. -/

/-- A load or a store of the program goes to one of these words. -/
def Event.Inside (words : Word → Prop) : Event → Prop
  | .load addr _ => words addr
  | .store addr _ => words addr
  | _ => True

/-- All accesses so far went to words that the program may use. -/
def Activation.Good (a : Activation σ) (ir : IrState σ) : Prop :=
  ∀ event ∈ ir.store.trace, event.Inside a.Shared

theorem Activation.Good.last {a : Activation σ} {ir : IrState σ} {event : Event} {store : Store σ}
    (good : a.Good { ir with store }) (logged : store.trace = ir.store.trace ++ [event]) :
    event.Inside a.Shared := by
  refine good event ?_
  rw [logged]
  exact List.mem_append_right _ List.mem_cons_self

/-- What the callee of a `call` does to the processor is what it does to the IR
machine, and it leaves the words alone that the caller relies on. -/
def Activation.Answers (a : Activation σ) (entered : AsmState σ) :
    Option (Word × Mem × σ) → Option (AsmState σ) → Prop
  | none, none => True
  | some (value, mem, outside), some returned =>
      returned.regs .rax = value ∧ returned.regs .rbp = entered.regs .rbp ∧
      returned.regs .rsp = entered.regs .rsp + 8 ∧ returned.outside = outside ∧
      Mem.AgreeOn a.Shared mem returned.mem ∧ Mem.AgreeOn a.Private entered.mem returned.mem
  | _, _ => False

/-- The IR machine and the processor run in the same program. -/
structure Activation.Links (a : Activation σ) (w : World σ) (m : AsmWorld σ) : Prop where
  var : ∀ name, m.address (.var name) = w.global name
  roData : ∀ id, m.address (.roData id) = w.roData id
  outer : ∀ name, a.outer (w.global name)
  callee : ∀ name args mem entered, entered.regs .rbp = a.bp →
    entered.regs .rsp = a.slot (a.frame + callWords args.length + 1) →
    (∀ i value, args[i]? = some value →
      entered.incoming (entered.regs .rsp - 8) i = value) →
    Mem.AgreeOn a.Shared mem entered.mem →
    a.Answers entered (w.callee name args mem entered.outside) (m.callee name entered)

theorem readTemps_cases (ts : List Nat) (ir : IrState σ) :
    readTemps ts ir = .error .undefined ir ∨ ∃ values, readTemps ts ir = .ok values ir ∧
      values.length = ts.length ∧
      ∀ (i t : Nat), ts[i]? = some t → ∃ value, values[i]? = some value ∧ ir.temps t = some value := by
  induction ts with
  | nil => exact .inr ⟨[], rfl, rfl, nofun⟩
  | cons t ts ih =>
      cases found : ir.temps t with
      | none =>
          left
          rw [readTemps, bind_run_of_error (readTemp_none found)]
      | some value =>
          rw [readTemps, bind_run_of_ok (readTemp_some found)]
          obtain undefined | ⟨values, read, length, reads⟩ := ih
          · left
            rw [bind_run_of_error undefined]
          · right
            rw [bind_run_of_ok read]
            refine ⟨value :: values, rfl, congrArg Nat.succ length, fun i t' at_ => ?_⟩
            cases i with
            | zero =>
                cases at_
                exact ⟨value, rfl, found⟩
            | succ i => exact reads i t' at_

/-! Single operations: the code of an operation puts its result into the slot of its temporary. -/

namespace Activation

variable {a : Activation σ} {w : World σ} {m : AsmWorld σ} {ir : IrState σ} {s s' : AsmState σ}

/-- Instructions that follow what the IR machine does. -/
def Follows (a : Activation σ) (m : AsmWorld σ) (s : AsmState σ) (lines : List Instr) :
    EStateM.Result Halt (IrState σ) Unit → Prop
  | .ok _ ir => a.Good ir → ∃ s', execInstrs m lines s = .ok s' ∧ a.Corresponds ir s'
  | .error halt _ => halt = .undefined ∨ halt = .trap ∧ execInstrs m lines s = .error .trap

theorem Follows.read {t : Nat} {lines : List Instr} {next : Word → IrStateM σ Unit}
    (follows : ∀ value, ir.temps t = some value → a.Follows m s lines (next value ir)) :
    a.Follows m s lines ((readTemp t >>= next) ir) := by
  cases found : ir.temps t with
  | none =>
      rw [bind_run_of_error (readTemp_none found)]
      exact .inl rfl
  | some value =>
      rw [bind_run_of_ok (readTemp_some found)]
      exact follows value found

/-- In the code of a function, the instructions `lines` follow what the IR machine
does, up to the code `rest` after them. -/
def Passes (a : Activation σ) (m : AsmWorld σ) (code lines rest : List Instr) (s : AsmState σ) :
    EStateM.Result Halt (IrState σ) Unit → Prop
  | .ok _ ir => a.Good ir → ∃ n s', Path (asmStep m code) (n + 1) (lines ++ rest) s rest s' ∧
      a.Corresponds ir s'
  | .error halt _ => halt = .undefined ∨
      ∃ s', Ends (asmStep m code) (lines ++ rest) s (.error halt s')

theorem Follows.passes {code rest lines : List Instr} {result : EStateM.Result Halt (IrState σ) Unit}
    (follows : a.Follows m s lines result) (some : lines ≠ []) :
    a.Passes m code lines rest s result := by
  cases result with
  | ok u ir' =>
      intro good
      obtain ⟨s', ran, after⟩ := follows good
      have path : Path (asmStep m code) lines.length (lines ++ rest) s rest s' := path_instrs ran
      cases lines with
      | nil => exact absurd rfl some
      | cons instr lines => exact ⟨lines.length, s', path, after⟩
  | error halt ir' =>
      rcases follows with undefined | ⟨rfl, halted⟩
      · exact .inl undefined
      · exact .inr (ends_trap halted)

/-- Instructions that put a value into a register. -/
def Evaluates (m : AsmWorld σ) (s : AsmState σ) (body : List Instr) (reg : Reg) (value : Word) :
    Prop := ∃ s', execInstrs m body s = .ok s' ∧ s.Kept s' ∧ s'.regs reg = value

namespace Corresponds

variable {d t : Nat} {value : Word} {body : List Instr} {reg : Reg}

theorem ld_exec (corresponds : a.Corresponds ir s) (found : ir.temps t = some value) (reg : Reg) :
    (ld reg t).exec m s = .ok (s.setReg reg value) := by
  obtain ⟨_, _, loaded⟩ := corresponds.temps t value found
  rw [exec_ld, corresponds.rbp, ← loaded]
  rfl

/-- Code that ends with storing its result to a slot. -/
theorem result (corresponds : a.Corresponds ir s) (evaluates : Evaluates m s body reg value)
    (store : Store σ) (mem : store.mem = ir.store.mem) (outside : store.outside = ir.store.outside)
    (slot : d ≠ 0 ∧ d ≤ a.maxT) : ∃ s', execInstrs m (body ++ [st d reg]) s = .ok s' ∧
      a.Corresponds ⟨Function.update ir.temps d (some value), store⟩ s' := by
  obtain ⟨middle, ran, kept, result⟩ := evaluates
  have follows := (corresponds.kept kept).relog mem outside
  refine ⟨_, ?_, follows.write value slot.1 slot.2⟩
  rw [execInstrs_append ran, execInstrs, exec_st, follows.rbp, result]
  rfl

/-- The code of `OP_ALLOC`. -/
theorem evaluates_alloc (m : AsmWorld σ) (corresponds : a.Corresponds ir s) (k : Nat) :
    Evaluates m s [.lea .rax (.mem .rbp (-((a.maxT + (1 + k)) * 8 : Nat)))] .rax (a.cell k) := by
  refine ⟨_, rfl, ⟨rfl, rfl, rfl, rfl⟩, ?_⟩
  change s.regs .rbp + BitVec.ofInt 64 _ = _
  rw [addr_slot, corresponds.rbp]
  rfl

/-- The code of `OP_ADDRESS`. -/
theorem evaluates_temp (m : AsmWorld σ) (corresponds : a.Corresponds ir s)
    (found : ir.temps t = some value) : Evaluates m s [ld .rax t] .rax value := by
  refine ⟨s.setReg .rax value, ?_, ⟨rfl, rfl, rfl, rfl⟩, rfl⟩
  rw [execInstrs, corresponds.ld_exec found]
  rfl

/-- The code of `OP_LOAD`. -/
theorem evaluates_load (m : AsmWorld σ) (corresponds : a.Corresponds ir s) {addr : Word}
    (found : ir.temps t = some addr) (shared : a.Shared addr) :
    Evaluates m s [ld .rax t, .mov (.reg .rax) (.mem .rax 0)] .rax (ir.store.mem.load addr) := by
  let loaded := s.setReg .rax addr
  have ran : execInstrs m [ld .rax t, .mov (.reg .rax) (.mem .rax 0)] s =
      .ok (loaded.setReg .rax (s.mem.load (addr + 0#64))) := by
    rw [execInstrs, corresponds.ld_exec found]
    rfl
  refine ⟨_, ran, ⟨rfl, rfl, rfl, rfl⟩, ?_⟩
  change s.mem.load (addr + 0#64) = _
  rw [BitVec.add_zero, corresponds.shared.load shared]

theorem loads_two (m : AsmWorld σ) (corresponds : a.Corresponds ir s) {left right : Word} {x y : Nat}
    (first : ir.temps x = some left) (second : ir.temps y = some right) :
    execInstrs m [ld .rax x, ld .rcx y] s = .ok ((s.setReg .rax left).setReg .rcx right) := by
  have later : a.Corresponds ir (s.setReg .rax left) := corresponds.kept ⟨rfl, rfl, rfl, rfl⟩
  rw [execInstrs, corresponds.ld_exec first]
  dsimp only
  rw [execInstrs, later.ld_exec second .rcx]
  rfl

/-- The code of `OP_STORE`. -/
theorem store_runs (m : AsmWorld σ) (corresponds : a.Corresponds ir s) {addr : Word} {x y : Nat}
    (found : ir.temps x = some addr) (found' : ir.temps y = some value) (shared : a.Shared addr)
    {store : Store σ} (mem : store.mem = ir.store.mem.store addr value)
    (outside : store.outside = ir.store.outside) :
    ∃ s', execInstrs m [ld .rax y, ld .rcx x, .mov (.mem .rcx 0) (.reg .rax)] s = .ok s' ∧
      a.Corresponds { ir with store } s' := by
  let loaded := (s.setReg .rax value).setReg .rcx addr
  have load := corresponds.loads_two m found' found
  have later : a.Corresponds ir loaded := corresponds.kept ⟨rfl, rfl, rfl, rfl⟩
  have ran : execInstrs m ([ld .rax y, ld .rcx x] ++ [.mov (.mem .rcx 0) (.reg .rax)]) s =
      .ok { loaded with mem := s.mem.store (addr + 0#64) value } := by
    rw [execInstrs_append load]
    rfl
  rw [BitVec.add_zero] at ran
  exact ⟨_, ran, later.store value shared mem outside⟩

end Corresponds

theorem operation_follows (links : a.Links w m) (corresponds : a.Corresponds ir s) {k : Nat}
    {d x y imm next : Nat} {op : IrOp} {name : CStr} {lines : List Instr}
    (valid : (IrNode.operation d op x y imm name).Valid)
    (member : .operation d op x y imm name ∈ a.nodes)
    (accepted : asmOp d op x y imm name (1 + k) a.maxT = .ok (lines, next)) :
    a.Follows m s lines (execOp w (a.cell k) d op x y imm name ir) := by
  obtain ⟨known, positive⟩ := valid
  have inside {t : Nat} (dest : (IrNode.operation d op x y imm name).dest? = some t) :
      t ≠ 0 ∧ t ≤ a.maxT :=
    ⟨fun same => positive (same ▸ dest), dest_le_maxTemp member dest⟩
  have loads {t : Nat} {value : Word} (reg : Reg) (found : ir.temps t = some value) :
      (ld reg t).exec m s = .ok (s.setReg reg value) := corresponds.ld_exec found reg
  by_cases binary : op.binary = true
  case pos =>
    obtain ⟨body, reg, computes, code⟩ := asmOp_binary (σ := σ) binary
    cases (code d x y imm name (1 + k) a.maxT).symm.trans accepted
    have spec : execOp w (a.cell k) d op x y imm name ir = (do
        let left ← readTemp x
        let right ← readTemp y
        writeTemp d (← onStore (op.value left right)) : IrStateM σ Unit) ir := by
      cases op <;> first | rfl | cases binary
    rw [spec]
    refine .read fun left found => .read fun right found' => ?_
    let loaded := (s.setReg .rax left).setReg .rcx right
    have load : execInstrs m [ld .rax x, ld .rcx y] s = .ok loaded := corresponds.loads_two m found found'
    have computed := computes m loaded ir.store
    rw [show loaded.regs .rax = left from rfl, show loaded.regs .rcx = right from rfl] at computed
    cases result : op.value left right ir.store with
    | ok value store =>
        rw [result] at computed
        obtain ⟨rfl, middle, ran, kept, final⟩ := computed
        have evaluates : Evaluates m s ([ld .rax x, ld .rcx y] ++ body) reg value :=
          ⟨middle, by rw [execInstrs_append load, ran],
            ⟨kept.mem, kept.outside, kept.rsp, kept.rbp⟩, final⟩
        have access : onStore (op.value left right) ir =
            .ok value ⟨ir.temps, ir.store.log (.value value)⟩ := by
          rw [onStore, result]
        rw [bind_run_of_ok access]
        have dest : (IrNode.operation d op x y imm name).dest? = some d := by
          cases op <;> first | rfl | cases binary
        exact fun _ => corresponds.result evaluates (ir.store.log _) rfl rfl (inside dest)
    | error halt store =>
        rw [result] at computed
        obtain ⟨rfl, halted⟩ := computed
        have access : onStore (op.value left right) ir = .error .trap { ir with store } := by
          rw [onStore, result]
        rw [bind_run_of_error access]
        refine .inr ⟨rfl, ?_⟩
        rw [asmBinary, List.append_assoc, execInstrs_append load]
        exact execInstrs_append_error halted
  cases op with
  | unset => exact absurd rfl known
  | const =>
      cases accepted
      have evaluates : Evaluates m s [.mov (.reg .rax) (.imm imm)] .rax (BitVec.ofNat 64 imm) :=
        ⟨_, rfl, ⟨rfl, rfl, rfl, rfl⟩, rfl⟩
      exact fun _ => corresponds.result evaluates (ir.store.log _) rfl rfl (inside rfl)
  | data =>
      cases accepted
      have evaluates : Evaluates m s [.lea .rax (.rel (.roData imm))] .rax (w.roData imm) :=
        ⟨_, rfl, ⟨rfl, rfl, rfl, rfl⟩, links.roData imm⟩
      exact fun _ => corresponds.result evaluates (ir.store.log _) rfl rfl (inside rfl)
  | alloc =>
      cases accepted
      exact fun _ => corresponds.result (corresponds.evaluates_alloc m k) ir.store rfl rfl (inside rfl)
  | globalAddr =>
      cases accepted
      have evaluates : Evaluates m s [.lea .rax (.rel (.var name))] .rax (w.global name) :=
        ⟨_, rfl, ⟨rfl, rfl, rfl, rfl⟩, links.var name⟩
      exact fun _ => corresponds.result evaluates (ir.store.log _) rfl rfl (inside rfl)
  | globalL =>
      cases accepted
      have evaluates : Evaluates m s [.mov (.reg .rax) (.rel (.var name))] .rax
          (ir.store.mem.load (w.global name)) := by
        refine ⟨_, rfl, ⟨rfl, rfl, rfl, rfl⟩, ?_⟩
        rw [corresponds.shared.load (.inl (links.outer name)), ← links.var]
        rfl
      exact fun _ => corresponds.result evaluates (ir.store.log _) rfl rfl (inside rfl)
  | address =>
      cases accepted
      refine .read fun addr found => ?_
      exact fun _ => corresponds.result (corresponds.evaluates_temp m found) (ir.store.log _) rfl rfl
        (inside rfl)
  | load =>
      cases accepted
      refine .read fun addr found => fun good => ?_
      have shared : a.Shared addr := good.last rfl
      exact corresponds.result (corresponds.evaluates_load m found shared) (ir.store.log _) rfl rfl
        (inside rfl)
  | neg =>
      cases accepted
      refine .read fun value found => ?_
      have evaluates : Evaluates m s [ld .rax x, .neg .rax] .rax (-value) := by
        refine ⟨((s.setReg .rax value).setReg .rax (-value)).setFlags none, ?_,
          ⟨rfl, rfl, rfl, rfl⟩, rfl⟩
        rw [execInstrs, loads .rax found]
        rfl
      exact fun _ => corresponds.result evaluates (ir.store.log _) rfl rfl (inside rfl)
  | store =>
      cases accepted
      refine .read fun addr found => .read fun value found' => fun good => ?_
      have shared : a.Shared addr := good.last rfl
      exact corresponds.store_runs m found found' shared rfl rfl
  | globalS =>
      cases accepted
      refine .read fun value found => fun _ => ?_
      have later : a.Corresponds ir (s.setReg .rax value) := corresponds.kept ⟨rfl, rfl, rfl, rfl⟩
      have ran : execInstrs m [ld .rax y, .mov (.rel (.var name)) (.reg .rax)] s =
          .ok { s.setReg .rax value with mem := s.mem.store (m.address (.var name)) value } := by
        rw [execInstrs, loads .rax found]
        rfl
      rw [links.var] at ran
      exact ⟨_, ran, later.store value (.inl (links.outer name)) rfl rfl⟩
  | _ => exact absurd rfl binary

/-! Calls: the callee finds its arguments, and what it does corresponds to what the IR machine
takes from the world. -/

/-- The state of the processor when the callee of a `call` is entered. -/
theorem Corresponds.entered (corresponds : a.Corresponds ir s) {called : AsmState σ}
    {args : List Nat} (passed : s.Passed called a.bp a.frame args)
    (deep : a.frame + callWords args.length + 3 ≤ a.depth) (returnAddr : Word) :
    (called.push returnAddr).regs .rsp = a.slot (a.frame + callWords args.length + 1) ∧
      Mem.AgreeOn a.Shared ir.store.mem (called.push returnAddr).mem ∧
      Mem.AgreeOn a.Private s.mem (called.push returnAddr).mem := by
  obtain ⟨least, room, near⟩ := a.sizes
  have rsp : called.regs .rsp - 8 = a.slot (a.frame + callWords args.length + 1) := by
    rw [passed.rsp]
    exact stackWord_sub a.bp _ 1
  have below {k : Nat} (low : a.frame < k) (high : k ≤ a.frame + callWords args.length + 1)
      {addr : Word} (own : a.Private addr) : Mem.Apart (a.slot k) addr := by
    rw [slot_eq]
    exact (own.apart (k := k + 1) (by omega) (by omega) (by omega)).symm
  refine ⟨rsp, ?_, ?_⟩
  · have pushed : Mem.AgreeOn a.Shared s.mem called.mem := passed.changed.agreeOn
      fun addr ⟨k, low, high, place⟩ other shared =>
        place ▸ slot_apart (.inr low) (by omega) shared
    refine (corresponds.shared.trans pushed).store_apart fun other shared => ?_
    rw [rsp]
    exact slot_apart (.inr (by omega)) (by omega) shared
  · have pushed : Mem.AgreeOn a.Private s.mem called.mem := passed.changed.agreeOn
      fun addr ⟨k, low, high, place⟩ other own => place ▸ below low (by omega) own
    refine pushed.store_apart fun other own => ?_
    rw [rsp]
    exact below (by omega) (Nat.le_refl _) own

theorem call_passes (links : a.Links w m) (corresponds : a.Corresponds ir s) {code rest : List Instr}
    {d : Nat} {name : CStr} {args : List Nat} (cell : Word) (valid : (IrNode.call d name args).Valid)
    (member : .call d name args ∈ a.nodes) :
    a.Passes m code (asmCall d name args) rest s ((IrNode.call d name args).exec w cell ir) := by
  obtain ⟨least, room, near⟩ := a.sizes
  have deep := a.calls d name args member
  change a.frame + callWords args.length + 3 ≤ a.depth at deep
  rw [IrNode.exec]
  obtain undefined | ⟨values, read, length, reads⟩ := readTemps_cases args ir
  case inl =>
    rw [bind_run_of_error undefined]
    exact .inl rfl
  rw [bind_run_of_ok read]
  have inside : ∀ t ∈ args, t ≤ a.frame := by
    intro t member
    obtain ⟨i, found⟩ := List.mem_iff_getElem?.mp member
    obtain ⟨value, _, defined⟩ := reads i t found
    have small := (corresponds.temps t value defined).2.1
    omega
  obtain ⟨called, before, passed⟩ := asmArgs_runs (m := m) corresponds.rbp corresponds.rsp inside
    (by omega)
  let after := asmResult d args.length ++ rest
  have reached : Path (asmStep m code) (asmArgs args).length (asmCall d name args ++ rest) s
      (.call name :: after) called := by
    rw [asmCall_eq, List.append_assoc]
    exact path_instrs before
  obtain ⟨rsp, shared, own⟩ := corresponds.entered passed deep (m.codeAddr after)
  have passes (i : Nat) (value : Word) (found : values[i]? = some value) :
      (called.push (m.codeAddr after)).incoming
        ((called.push (m.codeAddr after)).regs .rsp - 8) i = value := by
    obtain ⟨small, _⟩ := List.getElem?_eq_some_iff.mp found
    rw [length] at small
    have argument : args[i]? = some args[i] := List.getElem?_eq_getElem small
    obtain ⟨value', same, defined⟩ := reads i _ argument
    cases same.symm.trans found
    have few : args.length < 2 ^ 61 := by
      have words : args.length ≤ callWords args.length + nArgRegs := by
        unfold callWords
        omega
      have regs : nArgRegs = 6 := rfl
      omega
    rw [passed.incoming few _ argument]
    exact (corresponds.temps _ _ defined).2.2
  have answers := links.callee name values ir.store.mem (called.push (m.codeAddr after))
    passed.rbp (length ▸ rsp) passes shared
  have outside : (called.push (m.codeAddr after)).outside = ir.store.outside :=
    passed.outside.trans corresponds.outside
  rw [outside] at answers
  cases result : w.callee name values ir.store.mem ir.store.outside with
  | none =>
      have access : onStore (callOut w name values) ir =
          .error .noReturn ⟨ir.temps, ir.store.log (.call name values)⟩ := by
        simp only [onStore, callOut, bind_run, modify_run, get_run, Store.log, result, throw_run]
      rw [bind_run_of_error access]
      cases returns : m.callee name (called.push (m.codeAddr after)) with
      | some returned =>
          rw [result, returns] at answers
          exact answers.elim
      | none =>
          have stops : asmStep m code (.call name :: after) called =
              .error .noReturn (called.push (m.codeAddr after)) := by
            simp only [asmStep, returns]
          exact .inr ⟨_, _, _, _, reached, stops⟩
  | some outcome =>
      obtain ⟨value, mem, outside'⟩ := outcome
      cases returns : m.callee name (called.push (m.codeAddr after)) with
      | none =>
          rw [result, returns] at answers
          exact answers.elim
      | some returned =>
          rw [result, returns] at answers
          obtain ⟨rax, rbp, back, same, agree, kept⟩ := answers
          let store : Store σ := { ir.store.log (.call name values) with mem, outside := outside' }
          have access : onStore (callOut w name values) ir = .ok value ⟨ir.temps, store⟩ := by
            simp only [onStore, callOut, bind_run, modify_run, get_run, Store.log, result]
            rfl
          rw [bind_run_of_ok access]
          have level : returned.regs .rsp = stackWord a.bp (a.frame + callWords args.length) := by
            rw [back, ← passed.rsp]
            exact BitVec.sub_add_cancel _ _
          obtain ⟨final, ran, rbp', rsp', outside'', stored⟩ :=
            asmResult_runs (m := m) d (rbp.trans passed.rbp) level
          have called' : asmStep m code (.call name :: after) called = .ok (.more after) returned := by
            simp only [asmStep, returns]
          refine fun _ => ⟨(asmArgs args).length + (asmResult d args.length).length, final,
            reached.trans (.cons called' (path_instrs ran)), ?_⟩
          have carried : a.Corresponds ⟨ir.temps, store⟩ { final with mem := returned.mem } :=
            corresponds.carry rbp' rsp' (own.trans kept) agree (outside''.trans same)
          have written := carried.write value valid (dest_le_maxTemp member rfl)
          rw [← rax] at written
          change a.Corresponds _ { final with mem := returned.mem.store (stackWord a.bp d) _ } at written
          rw [← stored] at written
          rw [← rax]
          exact written

/-! Where the code of the remaining nodes lies. -/

section Positions

variable {maxT allocI next id : Nat} {node : IrNode} {nodes : List IrNode} {lines code : List Instr}

theorem asmNode_next (accepted : asmNode node allocI maxT = .ok (lines, next)) :
    next = allocI + countAllocs [node] := by
  cases node with
  | operation d op =>
      cases op <;> cases accepted <;> rfl
  | label | jump | branch | call | ret =>
      cases accepted
      rfl

theorem asmNode_unlabelled (accepted : asmNode node allocI maxT = .ok (lines, next))
    (other : node ≠ .label id) : ∀ instr ∈ lines, instr ≠ .label id := by
  cases node with
  | label own =>
      cases accepted
      rintro instr member rfl
      cases List.mem_singleton.mp member
      exact other rfl
  | operation d op => cases op <;> cases accepted <;> simp [asmBinary, ld, st]
  | jump | branch =>
      cases accepted
      simp [ld]
  | ret t =>
      cases accepted
      split <;> simp [ld]
  | call d name args =>
      cases accepted
      rw [asmCall_eq]
      have before : ∀ instr ∈ asmArgs args, instr ≠ .label id :=
        forall_asmArgs (by simp) (fun _ => by simp [ld]) (fun _ _ _ => by simp [ld]) (by simp) args
      have after : ∀ instr ∈ asmResult d args.length, instr ≠ .label id :=
        forall_asmResult (by simp) (by simp [st]) args.length
      exact List.forall_mem_append.mpr ⟨before, List.forall_mem_cons.mpr ⟨by simp, after⟩⟩

theorem asmNode_ne_nil (accepted : asmNode node allocI maxT = .ok (lines, next)) : lines ≠ [] :=
  (asmNode_leavesLast accepted).2.2

/-- The code from a label on is that of the nodes from the label on. -/
theorem instrTarget_asmNodes (id : Nat) (accepted : asmNodes maxT nodes allocI = .ok code) :
    ∃ before, nodes = before ++ labelTarget id nodes ∧
      asmNodes maxT (labelTarget id nodes) (allocI + countAllocs before) =
        .ok (instrTarget id code) := by
  induction nodes generalizing allocI code with
  | nil =>
      cases accepted
      exact ⟨[], rfl, rfl⟩
  | cons node nodes ih =>
      obtain ⟨lines, next, rest, first, later, rfl⟩ := asmNodes_cons accepted
      by_cases here : node = .label id
      · subst here
        have found : labelTarget id (.label id :: nodes) = .label id :: nodes :=
          List.dropWhile_cons_of_neg (by simp)
        refine ⟨[], by rw [found]; rfl, ?_⟩
        cases first
        have reached : instrTarget id ([.label id] ++ rest) = [.label id] ++ rest :=
          List.dropWhile_cons_of_neg (by simp)
        rw [found, reached]
        exact accepted
      · have onward : labelTarget id (node :: nodes) = labelTarget id nodes :=
          List.dropWhile_cons_of_pos (by simpa using here)
        obtain ⟨before, split, reached⟩ := ih later
        refine ⟨node :: before, by rw [onward, List.cons_append, ← split], ?_⟩
        rw [onward, instrTarget_append (asmNode_unlabelled first here), ← reached,
          asmNode_next first, Nat.add_assoc]
        have count : countAllocs ([node] ++ before) = countAllocs [node] + countAllocs before :=
          List.countP_append
        rw [← count]
        rfl

end Positions

/-- Where the code of the nodes ahead lies. -/
def At (a : Activation σ) (ahead : List IrNode) (position : List Instr) : Prop :=
  ∃ before, a.nodes = before ++ ahead ∧
    asmNodes a.maxT ahead (1 + countAllocs before) = .ok position

theorem At.cons {node : IrNode} {ahead : List IrNode} {position : List Instr}
    (at_ : a.At (node :: ahead) position) : ∃ lines next rest, position = lines ++ rest ∧
      asmNode node (1 + (countAllocs a.nodes - countAllocs (node :: ahead))) a.maxT =
        .ok (lines, next) ∧ node ∈ a.nodes ∧ a.At ahead rest := by
  obtain ⟨before, split, accepted⟩ := at_
  obtain ⟨lines, next, rest, first, later, rfl⟩ := asmNodes_cons accepted
  have count : countAllocs a.nodes = countAllocs before + countAllocs (node :: ahead) := by
    rw [split]
    exact List.countP_append
  refine ⟨lines, next, rest, rfl, ?_, ?_, before ++ [node], ?_, ?_⟩
  · rw [count, Nat.add_sub_cancel]
    exact first
  · rw [split]
    exact List.mem_append_right _ List.mem_cons_self
  · rw [split, List.append_assoc]
    rfl
  · rw [← later, asmNode_next first, Nat.add_assoc]
    congr 2
    exact List.countP_append

/-! Control transfers, and with them every step of the function. -/

/-- How a function that returned has left the processor. -/
structure Returned (a : Activation σ) (value : Word) (ir : IrState σ) (target : Word)
    (s : AsmState σ) : Prop where
  target : target = a.entry.mem.load (a.entry.regs .rsp)
  rax : s.regs .rax = value
  rsp : s.regs .rsp = a.entry.regs .rsp + 8
  rbp : s.regs .rbp = a.entry.regs .rbp
  shared : Mem.AgreeOn a.Shared ir.store.mem s.mem
  outside : s.outside = ir.store.outside

/-- The instructions of `IR_RETURN`, after the result was put into `rax`. -/
theorem Corresponds.returns (code rest : List Instr) (corresponds : a.Corresponds ir s)
    {value : Word} (rax : s.regs .rax = value) : ∃ target s',
      Ends (asmStep m code) (.leave :: .ret :: rest) s (.ok target s') ∧
        a.Returned value ir target s' := by
  let left := (s.setReg .rsp (s.regs .rbp + 8)).setReg .rbp (s.mem.load (s.regs .rbp))
  have leave : asmStep m code (.leave :: .ret :: rest) s = .ok (.more (.ret :: rest)) left := rfl
  have top : left.regs .rsp = a.entry.regs .rsp := by
    change s.regs .rbp + 8 = _
    rw [corresponds.rbp]
    exact BitVec.sub_add_cancel _ _
  refine ⟨_, _, ⟨1, _, _, .one leave, rfl⟩, ?_⟩
  constructor
  · change s.mem.load (left.regs .rsp) = _
    rw [top, corresponds.back]
  · exact rax
  · change left.regs .rsp + 8 = _
    rw [top]
  · change s.mem.load (s.regs .rbp) = _
    rw [corresponds.rbp, corresponds.saved]
  · exact corresponds.shared
  · exact corresponds.outside

/-- A node that passes control on is followed by its code. -/
theorem exec_passes (links : a.Links w m) (corresponds : a.Corresponds ir s) {node : IrNode}
    {k next : Nat} {lines code rest : List Instr} (valid : node.Valid) (member : node ∈ a.nodes)
    (accepted : asmNode node (1 + k) a.maxT = .ok (lines, next))
    (straight : (∃ d op x y imm name, node = .operation d op x y imm name) ∨
      ∃ d name args, node = .call d name args) :
    a.Passes m code lines rest s (node.exec w (a.cell k) ir) := by
  rcases straight with ⟨d, op, x, y, imm, name, rfl⟩ | ⟨d, name, args, rfl⟩
  · have follows := operation_follows links corresponds valid member accepted
    exact follows.passes (asmNode_ne_nil accepted)
  · cases accepted
    exact call_passes links corresponds (a.cell k) valid member

theorem branch_passes (code rest : List Instr) (id idF : Nat) (corresponds : a.Corresponds ir s)
    {value : Word} {t : Nat} (found : ir.temps t = some value) : ∃ n s',
      Path (asmStep m code) (n + 1)
        ([ld .rax t, .test .rax .rax, .jnz id, .jmp idF] ++ rest) s
        (instrTarget (if value ≠ 0 then id else idF) code) s' ∧
      a.Corresponds ⟨ir.temps, ir.store.log (.test value)⟩ s' := by
  let tested := (s.setReg .rax value).setFlags (some (testFlags value value))
  have load : asmStep m code (ld .rax t :: .test .rax .rax :: .jnz id :: .jmp idF :: rest) s =
      .ok (.more (.test .rax .rax :: .jnz id :: .jmp idF :: rest)) (s.setReg .rax value) :=
    asmStep_exec (corresponds.ld_exec found .rax)
  have test : asmStep m code (.test .rax .rax :: .jnz id :: .jmp idF :: rest) (s.setReg .rax value) =
      .ok (.more (.jnz id :: .jmp idF :: rest)) tested := rfl
  have jump : asmStep m code (.jnz id :: .jmp idF :: rest) tested =
      .ok (.more (if value &&& value == 0 then .jmp idF :: rest else instrTarget id code)) tested :=
    rfl
  have kept : s.Kept tested := ⟨rfl, rfl, rfl, rfl⟩
  have after : a.Corresponds ⟨ir.temps, ir.store.log (.test value)⟩ tested := by
    apply (corresponds.kept kept).relog <;> rfl
  rw [BitVec.and_self] at jump
  by_cases nonzero : value ≠ 0
  · rw [if_neg (by simpa using nonzero)] at jump
    rw [if_pos nonzero]
    exact ⟨2, tested, .cons load (.cons test (.one jump)), after⟩
  · rw [if_pos (by simpa using nonzero)] at jump
    rw [if_neg nonzero]
    exact ⟨3, tested, .cons load (.cons test (.cons jump (.one rfl))), after⟩

theorem refines (links : a.Links w m) (valid : ∀ node ∈ a.nodes, node.Valid) {code body : List Instr}
    (generated : asmNodes a.maxT a.nodes 1 = .ok body)
    (targets : ∀ id, instrTarget id code = instrTarget id body) :
    Refines (irStep w a.cell a.nodes) (asmStep m code) a.Good (· = .undefined)
      (fun ahead ir position s => a.At ahead position ∧ a.Corresponds ir s) a.Returned := by
  rintro ahead ir position s ⟨at_, corresponds⟩
  have jumps (id : Nat) : a.At (labelTarget id a.nodes) (instrTarget id code) := by
    rw [targets]
    exact instrTarget_asmNodes id generated
  cases ahead with
  | nil => exact fun _ => .inl rfl
  | cons node ahead =>
      obtain ⟨lines, next, rest, rfl, accepted, member, onward⟩ := at_.cons
      have passes (straight : (∃ d op x y imm name, node = .operation d op x y imm name) ∨
          ∃ d name args, node = .call d name args) (step : irStep w a.cell a.nodes (node :: ahead) = do
            node.exec w (a.cell (countAllocs a.nodes - countAllocs (node :: ahead)))
            return .more ahead) :
          Followed (asmStep m code) a.Good (· = .undefined)
            (fun ahead ir position s => a.At ahead position ∧ a.Corresponds ir s) a.Returned
            (lines ++ rest) s (irStep w a.cell a.nodes (node :: ahead) ir) := by
        have followed : a.Passes m code lines rest s _ :=
          exec_passes links corresponds (valid node member) member accepted straight
        rw [step, bind_run]
        cases result : node.exec w (a.cell (countAllocs a.nodes - countAllocs (node :: ahead))) ir with
        | ok u ir' =>
            rw [result] at followed
            intro good
            obtain ⟨n, s', path, after⟩ := followed good
            exact ⟨n, rest, s', path, onward, after⟩
        | error halt ir' =>
            rw [result] at followed
            exact fun _ => followed
      cases node with
      | operation d op x y imm name => exact passes (.inl ⟨d, op, x, y, imm, name, rfl⟩) rfl
      | call d name args => exact passes (.inr ⟨d, name, args, rfl⟩) rfl
      | label id =>
          cases accepted
          exact fun _ => ⟨0, rest, s, .one rfl, onward, corresponds⟩
      | jump id =>
          cases accepted
          exact fun _ => ⟨0, _, s, .one rfl, jumps id, corresponds⟩
      | branch id idF t =>
          cases accepted
          cases found : ir.temps t with
          | none =>
              rw [irStep, bind_run_of_error (readTemp_none found)]
              exact fun _ => .inl rfl
          | some value =>
              obtain ⟨n, s', path, after⟩ :=
                branch_passes (m := m) code rest id idF corresponds found
              have step : irStep w a.cell a.nodes (.branch id idF t :: ahead) ir =
                  .ok (.more (labelTarget (if value ≠ 0 then id else idF) a.nodes))
                    ⟨ir.temps, ir.store.log (.test value)⟩ := by
                have test : onStore (testWord value) ir =
                    .ok (decide (value ≠ 0)) ⟨ir.temps, ir.store.log (.test value)⟩ := rfl
                rw [irStep, bind_run_of_ok (readTemp_some found), bind_run_of_ok test]
                simp only [decide_eq_true_eq, pure_run]
              rw [step]
              exact fun _ => ⟨n, _, s', path, jumps _, after⟩
      | ret t =>
          cases accepted
          by_cases empty : t = 0
          · subst empty
            rw [irStep, if_pos rfl]
            have cleared : a.Corresponds ir ((s.setReg .rax 0).setFlags none) :=
              corresponds.kept ⟨rfl, rfl, rfl, rfl⟩
            obtain ⟨target, s', ends, returned⟩ :=
              cleared.returns (m := m) code rest rfl
            exact fun _ => ⟨target, s', .of_path (.one rfl) ends, returned⟩
          · rw [irStep, if_neg empty, if_pos empty]
            cases found : ir.temps t with
            | none =>
                rw [bind_run_of_error (readTemp_none found)]
                exact fun _ => .inl rfl
            | some value =>
                rw [bind_run_of_ok (readTemp_some found)]
                have loaded : a.Corresponds ir (s.setReg .rax value) :=
                  corresponds.kept ⟨rfl, rfl, rfl, rfl⟩
                obtain ⟨target, s', ends, returned⟩ :=
                  loaded.returns (m := m) code rest rfl
                have load : asmStep m code (ld .rax t :: .leave :: .ret :: rest) s =
                    .ok (.more (.leave :: .ret :: rest)) (s.setReg .rax value) :=
                  asmStep_exec (corresponds.ld_exec found .rax)
                exact fun _ => ⟨target, s', .of_path (.one load) ends, returned⟩

/-! The function as a whole, from its entry on. -/

theorem asmNodes_accepts {nodes : List IrNode} (valid : ∀ node ∈ nodes, node.Valid)
    (maxT allocI : Nat) : ∃ code, asmNodes maxT nodes allocI = .ok code := by
  induction nodes generalizing allocI with
  | nil => exact ⟨[], rfl⟩
  | cons node nodes ih =>
      obtain ⟨first, rest⟩ := List.forall_mem_cons.mp valid
      obtain ⟨lines, next, accepted⟩ : ∃ lines next, asmNode node allocI maxT = .ok (lines, next) := by
        cases node with
        | operation d op a b imm name =>
            cases op with
            | unset => exact absurd rfl first.1
            | _ => exact ⟨_, _, rfl⟩
        | label | jump | branch | call | ret => exact ⟨_, _, rfl⟩
      obtain ⟨code, generated⟩ := ih rest next
      refine ⟨lines ++ code, ?_⟩
      simp only [asmNodes, accepted, generated, bind, Except.bind]
      rfl

/-- The IR machine at the entry, with the arguments that the prologue finds. -/
def start (a : Activation σ) (mem : Mem) : IrState σ where
  temps := argTemps a.args
  store := { mem, outside := a.entry.outside }

theorem corresponds_start {mem : Mem} (shared : Mem.AgreeOn a.Shared mem a.entry.mem)
    (framed : a.entry.Framed s a.params a.maxT a.nAlloc) : a.Corresponds (a.start mem) s := by
  obtain ⟨least, room, near⟩ := a.sizes
  have params := a.params_le
  constructor
  case rbp => exact framed.rbp
  case rsp => exact framed.rsp
  case saved => exact framed.saved
  case outside => exact framed.outside
  case temps =>
    intro t value found
    change (if t = 0 then none else a.args[t - 1]?) = some value at found
    split at found
    case isTrue => cases found
    case isFalse positive =>
      obtain ⟨small, rfl⟩ := List.getElem?_eq_some_iff.mp found
      rw [args, List.length_map, List.length_range] at small
      refine ⟨positive, by omega, ?_⟩
      have stored := framed.params (t - 1) small
      rw [Nat.sub_add_cancel (Nat.one_le_iff_ne_zero.mpr positive)] at stored
      simp only [args, List.getElem_map, List.getElem_range]
      exact stored
  case shared =>
    refine shared.trans (framed.changed.agreeOn ?_)
    rintro addr ⟨k, _, high, rfl⟩ other member
    exact slot_apart (.inl (by omega)) (by omega) member
  case back =>
    refine framed.changed.load ?_
    rintro other ⟨k, _, high, rfl⟩
    have place := a.slot_eq k
    rw [slot] at place
    change Mem.Apart (stackWord a.bp k) _
    rw [place]
    exact stackWord_apart_top (Nat.succ_pos k) (by omega)

end Activation

/-- The backend refines the IR: the code of a function that the generator makes
lays out its frame with a word for each `OP_ALLOC`, reaches the code of every
node that the IR machine reaches, with corresponding states, and ends as the IR
machine does, as long as the accesses of the program go to words of its own. -/
theorem asmFunction_refines {w : World σ} {m : AsmWorld σ} (a : Activation σ) (links : a.Links w m)
    {node : AstNode} {ir final : Ir} {name : CStr}
    (accepted : irFunctionS node ir = .ok (.function name a.params a.nodes) final) :
    ∃ code, asmFunction a.params a.nodes = .ok code ∧
      (∀ k < a.nAlloc, StackRange a.bp 1 (a.frame + 1) (a.cell k) ∧
        (∀ t ≤ a.maxT, Mem.Apart (a.slot t) (a.cell k)) ∧
        ∀ j < a.nAlloc, j ≠ k → Mem.Apart (a.cell j) (a.cell k)) ∧
      ∀ mem, Mem.AgreeOn a.Shared mem a.entry.mem →
        (∀ n ahead state, Path (irStep w a.cell a.nodes) n a.nodes (a.start mem) ahead state →
          a.Good state → ∃ k position s, n ≤ k ∧ Path (asmStep m code) k code a.entry position s ∧
            a.At ahead position ∧ a.Corresponds state s) ∧
        (∀ value state,
          Ends (irStep w a.cell a.nodes) a.nodes (a.start mem) (.ok value state) → a.Good state →
          ∃ target s, Ends (asmStep m code) code a.entry (.ok target s) ∧
            a.Returned value state target s) ∧
        ∀ halt state,
          Ends (irStep w a.cell a.nodes) a.nodes (a.start mem) (.error halt state) → a.Good state →
          halt = .undefined ∨ ∃ s, Ends (asmStep m code) code a.entry (.error halt s) := by
  obtain ⟨least, room, near⟩ := a.sizes
  have params := a.params_le
  have valid := irFunctionS_valid accepted
  obtain ⟨body, generated⟩ := Activation.asmNodes_accepts valid a.maxT 1
  let code := asmPrologue a.params a.maxT a.nAlloc ++ body
  have translated : asmFunction a.params a.nodes = .ok code := by
    rw [asmFunction]
    change (do
      let lines ← asmNodes a.maxT a.nodes 1
      return asmPrologue a.params a.maxT a.nAlloc ++ lines : Except Diag (List Instr)) = _
    rw [generated]
    rfl
  obtain ⟨framed, prologue, frame⟩ :=
    asmPrologue_runs (m := m) a.entry a.maxT a.nAlloc (show 2 * a.params + 2 < 2 ^ 61 by omega)
  have entered : Path (asmStep m code) _ code a.entry body framed := path_instrs prologue
  have follows := Activation.refines links valid generated fun id =>
    instrTarget_append (asmPrologue_unlabelled a.params a.maxT a.nAlloc id)
  have grows := Grows.irStep w a.cell a.nodes
  have good {before after : IrState σ} (grows : before.Grows after) (good : a.Good after) :
      a.Good before := fun event member => good event (grows.subset member)
  have earlier : Earlier (irStep w a.cell a.nodes) a.Good :=
    fun ahead state next state' stepped => good ((grows ahead).of_ok stepped)
  refine ⟨code, translated, fun k small => Activation.cell_layout small, fun mem shared => ?_⟩
  have start : a.At a.nodes body ∧ a.Corresponds (a.start mem) framed :=
    ⟨⟨[], rfl, generated⟩, Activation.corresponds_start shared frame⟩
  refine ⟨fun n ahead state path last => ?_, fun value state ends last => ?_,
    fun halt state ends last => ?_⟩
  · obtain ⟨k, position, s, le, followed, at_, corresponds⟩ := follows.path earlier path last start
    exact ⟨_, position, s, Nat.le_add_left_of_le le, entered.trans followed, at_, corresponds⟩
  · obtain ⟨target, s, ends, returned⟩ := follows.ends_ok earlier
      (fun ahead state' stepped => good ((grows ahead).of_ok stepped) last) ends last start
    exact ⟨target, s, .of_path entered ends, returned⟩
  · obtain undefined | ⟨s, ends⟩ := follows.ends_error earlier
      (fun ahead state' stepped => good ((grows ahead).of_error stepped) last) ends last start
    · exact .inl undefined
    · exact .inr ⟨s, .of_path entered ends⟩

/-- The IR of `f(x) return g(2);`, with braces around the body. -/
def calledNodes : List IrNode :=
  [.label 1, .operation 2 .alloc 0 0, .operation 0 .store 2 1, .operation 1 .address 2 0,
    .operation 3 .const 0 0 2, .call 4 none [3], .ret 4]

def calledActivation : Activation Unit where
  entry := stubState
  params := 1
  nodes := calledNodes
  outer addr := addr = 0
  depth := 16
  room := by decide
  calls := by
    intro d name args member
    obtain rfl : args = [3] := by
      simp [calledNodes] at member
      exact member.2.2
    decide
  near := near_sixteen
  apart := by
    rintro addr rfl
    decide +kernel

/-- A program whose functions give 5, as those of `stubWorld` do. -/
def fiveWorld : World Unit where
  global _ := 0
  roData _ := 0
  callee _ _ mem outside := some (5, mem, outside)

theorem asmFunction_refines_call : ∃ code, asmFunction 1 calledNodes = .ok code ∧
    ∃ target s, Ends (asmStep stubWorld code) code stubState (.ok target s) ∧
      s.regs .rax = 5 ∧ s.regs .rsp = stubState.regs .rsp + 8 := by
  have links : calledActivation.Links fiveWorld stubWorld := by
    refine ⟨fun _ => rfl, fun _ => rfl, fun _ => rfl, fun name args mem entered _ _ _ shared => ?_⟩
    exact ⟨rfl, rfl, rfl, rfl, shared, .refl _ _⟩
  let body : AstNode :=
    .scope ⟨2, []⟩ [.return_ (some (.functionCall none [.atom .int none 2]))]
  let ir : Ir := { heap := ⟨fun _ => some {}, 3⟩ }
  have accepted : irFunctionS (.function none 0 1 1 body) ir = .ok (.function none 1 calledNodes) _ :=
    rfl
  obtain ⟨code, translated, _, follows⟩ :=
    asmFunction_refines calledActivation links accepted
  refine ⟨code, translated, ?_⟩
  obtain ⟨_, ends, _⟩ := follows stubState.mem (.refl _ _)
  have slot : calledActivation.Shared (calledActivation.cell 0) := .inr ⟨0, by decide, rfl⟩
  obtain ⟨target, s, ended, returned⟩ := ends 5 _ ⟨6, _, _, .cons rfl (.cons rfl (.cons rfl
    (.cons rfl (.cons rfl (.cons rfl .refl))))), rfl⟩ (by
      intro event member
      change event ∈ [Event.store _ _, .value _, .value _, .call _ _] at member
      simp only [List.mem_cons, List.not_mem_nil, or_false] at member
      rcases member with rfl | rfl | rfl | rfl
      · exact slot
      all_goals trivial)
  exact ⟨target, s, ended, returned.rax, returned.rsp⟩

end Trident
