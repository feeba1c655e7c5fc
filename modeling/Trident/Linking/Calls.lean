import Trident.Linking.Image

/-! A function in a linked program: node by node, the processor follows the IR machine,
into the functions that are called and back. -/

set_option autoImplicit false

namespace Trident

open Foundation

variable {σ : Type}

/-- How a function finds the processor at its entry: the arguments are in place, and
the stack has room below the return address, apart from the words the program uses. -/
structure Entered (room : Nat) (live : Word → Bool) (args : List Word) (mem : Mem) (outside : σ)
    (s : AsmState σ) : Prop where
  args : ∀ i value, args[i]? = some value → s.incoming (s.regs .rsp - 8) i = value
  shared : Mem.AgreeOn (live · = true) mem s.mem
  outside : s.outside = outside
  near : room ≤ 2 ^ 60
  apart : ∀ addr, live addr = true → ∀ k < room, Mem.Apart (stackWord (s.regs .rsp) k) addr

/-- How it leaves the processor behind its return. -/
structure Left (room : Nat) (live : Word → Bool) (result : Word × Mem × σ) (s s' : AsmState σ) :
    Prop where
  rax : s'.regs .rax = result.1
  rbp : s'.regs .rbp = s.regs .rbp
  rsp : s'.regs .rsp = s.regs .rsp + 8
  shared : Mem.AgreeOn (live · = true) result.2.1 s'.mem
  outside : s'.outside = result.2.2
  changed : Mem.ChangesOnly (fun addr => live addr = true ∨ StackRange (s.regs .rsp) 1 room addr)
    s.mem s'.mem

/-- From a `call` in the function `name`, the processor gets to the code `rest` behind
it, with the result of the callee. -/
def Process.Calls (r : Process σ) (name callee : CStr) (rest : List Instr) (room : Nat)
    (live : Word → Bool) (result : Word × Mem × σ) (s : AsmState σ) : Prop :=
  ∃ s', r.Goes (name, .call callee :: rest) s (name, rest) s' ∧
    Left room live result (r.enter r.tick name rest s) s'

theorem stackWord_stackWord (top : Word) (k j : Nat) :
    stackWord (stackWord top k) j = stackWord top (k + j) := stackWord_sub top k j

namespace Activation

variable {a : Activation σ} {r : Process σ} {w : World σ} {ir ir' : IrState σ} {s : AsmState σ}
  {name : CStr} {code rest : List Instr} {shared : Word → Bool}

/-- The words of the stack down to the return address of a function that is called with
`argc` arguments. -/
def below (a : Activation σ) (argc : Nat) : Nat := a.frame + callWords argc + 2

/-- What the functions called in `code` do, when the processor gets there. -/
def Answered (a : Activation σ) (r : Process σ) (w : World σ) (name : CStr) (code : List Instr)
    (shared : Word → Bool) : Prop :=
  ∀ callee args mem outside result rest s, r.Seen (name, .call callee :: rest) s →
    w.callee callee args mem outside = some result → .call callee :: rest <:+ code →
    Entered (a.depth - a.below args.length) shared args mem (r.tick outside)
      (r.enter r.tick name rest s) →
    (r.enter r.tick name rest s).regs .rsp = stackWord (a.entry.regs .rsp) (a.below args.length) →
    r.Calls name callee rest (a.depth - a.below args.length) shared result s

/-- What lies between the frame and the end of the stack is apart from what is shared. -/
theorem entered_apart (same : ∀ addr, shared addr = true ↔ a.Shared addr) {argc : Nat} {sp addr : Word}
    (top : sp = stackWord (a.entry.regs .rsp) (a.below argc)) (member : shared addr = true) {k : Nat}
    (small : k < a.depth - a.below argc) : Mem.Apart (stackWord sp k) addr := by
  have place : stackWord sp k = a.slot (a.frame + callWords argc + 1 + k) := by
    rw [top, stackWord_stackWord, slot_eq, below]
    congr 1
    omega
  rw [place]
  rw [below] at small
  exact slot_apart (.inr (by omega)) (by omega) ((same addr).mp member)

theorem touched_below {argc : Nat} {sp addr : Word}
    (top : sp = stackWord (a.entry.regs .rsp) (a.below argc))
    (inside : StackRange sp 1 (a.depth - a.below argc) addr) : a.Touched addr := by
  obtain ⟨k, low, high, rfl⟩ := inside
  exact .inr ⟨a.below argc + k, by omega, by omega, by rw [top, stackWord_stackWord]⟩

/-- A callee leaves the words alone that the caller relies on. -/
theorem own_kept (same : ∀ addr, shared addr = true ↔ a.Shared addr) {argc : Nat} {sp : Word}
    (top : sp = stackWord (a.entry.regs .rsp) (a.below argc)) (deep : a.below argc ≤ a.depth)
    {before after : Mem} (changed : Mem.ChangesOnly (fun addr => shared addr = true ∨
      StackRange sp 1 (a.depth - a.below argc) addr) before after) :
    Mem.AgreeOn a.Private before after := by
  obtain ⟨least, room, near⟩ := a.sizes
  refine changed.agreeOn fun addr member other own => ?_
  obtain member | ⟨k, low, high, rfl⟩ := member
  · exact (private_apart own ((same addr).mp member)).symm
  · rw [top, stackWord_stackWord]
    rw [below] at *
    exact (own.apart (by omega) (by omega) (by omega)).symm

/-- The code of a call. -/
theorem call_followed (found : r.code name = some code)
    (same : ∀ addr, shared addr = true ↔ a.Shared addr)
    (answered : a.Answered r w name code shared) (corresponds : a.Corresponds ir s)
    {d : Nat} {callee : CStr} {args : List Nat} {cell : Word}
    (valid : (IrNode.call d callee args).Valid) (member : .call d callee args ∈ a.nodes)
    (suffix : asmCall d callee args ++ rest <:+ code)
    (seen : r.Seen (name, asmCall d callee args ++ rest) s)
    (did : (IrNode.call d callee args).exec w cell ir = .ok () ir') :
    ∃ s', r.Goes (name, asmCall d callee args ++ rest) s (name, rest) s' ∧
      a.Corresponds ir' s' ∧ Mem.ChangesOnly a.Touched s.mem s'.mem := by
  obtain ⟨least, room, near⟩ := a.sizes
  have deep := a.calls d callee args member
  change a.frame + callWords args.length + 3 ≤ a.depth at deep
  rw [IrNode.exec] at did
  obtain undefined | ⟨values, read, length, reads⟩ := readTemps_cases args ir
  case inl =>
    rw [bind_run_of_error undefined] at did
    cases did
  rw [bind_run_of_ok read] at did
  have inside : ∀ t ∈ args, t ≤ a.frame := by
    intro t member
    obtain ⟨i, place⟩ := List.mem_iff_getElem?.mp member
    obtain ⟨value, _, defined⟩ := reads i t place
    have small := (corresponds.temps t value defined).2.1
    omega
  obtain ⟨called, before, passed⟩ := asmArgs_runs (m := r.world name) corresponds.rbp
    corresponds.rsp inside (by omega)
  let after := asmResult d args.length ++ rest
  have shape : asmCall d callee args ++ rest = asmArgs args ++ .call callee :: after := by
    rw [asmCall_eq, List.append_assoc]
    rfl
  rw [shape] at suffix seen ⊢
  have reached : r.Goes (name, asmArgs args ++ .call callee :: after) s
      (name, .call callee :: after) called := Process.goes_lines found before
  let entered := r.enter r.tick name after called
  obtain ⟨rsp, agree, own⟩ := corresponds.entered passed deep (r.place name after)
  have top : entered.regs .rsp = stackWord (a.entry.regs .rsp) (a.below args.length) := by
    rw [below, ← slot_eq]
    exact rsp
  have few : args.length < 2 ^ 61 := by
    have words : args.length ≤ callWords args.length + nArgRegs := by
      unfold callWords
      omega
    have regs : nArgRegs = 6 := rfl
    omega
  have incoming : ∀ i value, values[i]? = some value →
      entered.incoming (entered.regs .rsp - 8) i = value := by
    intro i value given
    obtain ⟨small, _⟩ := List.getElem?_eq_some_iff.mp given
    rw [length] at small
    have argument : args[i]? = some args[i] := List.getElem?_eq_getElem small
    obtain ⟨value', known, defined⟩ := reads i _ argument
    cases known.symm.trans given
    exact (passed.incoming few (r.place name after) argument).trans (corresponds.temps _ _ defined).2.2
  have entering : Entered (a.depth - a.below args.length) shared values ir.store.mem
      (r.tick ir.store.outside) entered :=
    { args := incoming
      shared := agree.mono fun addr => (same addr).mp
      outside := congrArg r.tick (passed.outside.trans corresponds.outside)
      near := Nat.le_trans (Nat.sub_le _ _) near
      apart := fun addr member k small => entered_apart same top member small }
  cases result : w.callee callee values ir.store.mem ir.store.outside with
  | none =>
      have access : onStore (callOut w callee values) ir =
          .error .noReturn ⟨ir.temps, ir.store.log (.call callee values)⟩ := by
        simp only [onStore, callOut, bind_run, modify_run, get_run, Store.log, result, throw_run]
      rw [bind_run_of_error access] at did
      cases did
  | some outcome =>
      obtain ⟨returned, goes, left⟩ := answered callee values ir.store.mem ir.store.outside outcome
        after called (seen.goes reached) result ((List.suffix_append _ _).trans suffix) (length ▸ entering)
        (length ▸ top)
      rw [length] at left
      obtain ⟨value, mem, outside'⟩ := outcome
      let store : Store σ := { ir.store.log (.call callee values) with mem, outside := outside' }
      have access : onStore (callOut w callee values) ir = .ok value ⟨ir.temps, store⟩ := by
        simp only [onStore, callOut, bind_run, modify_run, get_run, Store.log, result]
        rfl
      rw [bind_run_of_ok access] at did
      cases did
      have level : returned.regs .rsp = stackWord a.bp (a.frame + callWords args.length) := by
        rw [left.rsp, ← passed.rsp]
        exact BitVec.sub_add_cancel _ _
      obtain ⟨final, ran, rbp', rsp', outside'', stored⟩ :=
        asmResult_runs (m := r.world name) d (left.rbp.trans passed.rbp) level
      have small : d ≤ a.maxT := dest_le_maxTemp member rfl
      have kept := own_kept same top (by rw [below]; omega) left.changed
      refine ⟨final, reached.trans (goes.trans (Process.goes_lines found ran)), ?_, ?_⟩
      · have carried : a.Corresponds ⟨ir.temps, store⟩ { final with mem := returned.mem } :=
          corresponds.carry rbp' rsp' (own.trans kept) (left.shared.mono fun addr => (same addr).mpr)
            (outside''.trans left.outside)
        have written := carried.write value valid small
        have rax : returned.regs .rax = value := left.rax
        change a.Corresponds _ { final with mem := returned.mem.store (stackWord a.bp d) value } at written
        rw [← rax, ← stored, rax] at written
        exact written
      · have pushing : Mem.ChangesOnly a.Touched s.mem called.mem := passed.changed.mono <| by
          rintro _ ⟨k, low, high, rfl⟩
          exact touched_slot (by omega)
        have pushed : Mem.ChangesOnly a.Touched called.mem entered.mem := by
          refine .store (.inr ⟨a.below args.length, ?_, ?_, top⟩) <;> rw [below] <;> omega
        have calling : Mem.ChangesOnly a.Touched entered.mem returned.mem := left.changed.mono <| by
          rintro addr (member | inside)
          · exact .inl ((same addr).mp member)
          · exact touched_below top inside
        rw [stored]
        exact pushing.trans (pushed.trans (calling.trans (.store (touched_slot (by omega)))))

end Activation

end Trident
