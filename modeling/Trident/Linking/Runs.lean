import Trident.Linking.Calls

/-! The run of a function in a linked program, from its entry up to its `ret`. -/

set_option autoImplicit false

namespace Trident

open Foundation

variable {σ : Type}

/-- The processor stands before the `ret` of a function that it entered in the state `s`. -/
structure Returning (room : Nat) (live : Word → Bool) (result : Word × Mem × σ)
    (s s' : AsmState σ) : Prop where
  back : s'.mem.load (s'.regs .rsp) = s.mem.load (s.regs .rsp)
  left : Left room live result s (s'.setReg .rsp (s'.regs .rsp + 8))

/-- The same program, but that no call returns. -/
def World.silent (w : World σ) : World σ := { w with callee := fun _ _ _ _ => none }

namespace Activation

variable {a : Activation σ} {r : Process σ} {w : World σ} {name : CStr} {code body : List Instr}
  {shared : Word → Bool} {ahead ahead' : List IrNode} {ir ir' : IrState σ} {position : List Instr}
  {s : AsmState σ}

/-- The function of an activation, in a linked program. -/
structure Linked (a : Activation σ) (r : Process σ) (w : World σ) (name : CStr) (code : List Instr)
    (shared : Word → Bool) : Prop where
  found : r.code name = some code
  var : ∀ global, r.address name (.var global) = w.global global
  roData : ∀ id, r.address name (.roData id) = w.roData id
  outer : ∀ global, a.outer (w.global global)
  same : ∀ addr, shared addr = true ↔ a.Shared addr
  answered : a.Answered r w name code shared

theorem Linked.links (linked : a.Linked r w name code shared) :
    a.Links w.silent (r.world name) where
  var := linked.var
  roData := linked.roData
  outer := linked.outer
  callee _ _ _ _ _ _ _ _ := trivial

/-- The states of the IR machine and of the processor between two nodes. -/
structure Stands (a : Activation σ) (r : Process σ) (name : CStr) (code : List Instr)
    (ahead : List IrNode) (ir : IrState σ) (position : List Instr) (s : AsmState σ) : Prop where
  seen : r.Seen (name, position) s
  at_ : a.At ahead position
  corresponds : a.Corresponds ir s
  inside : position <:+ code
  changed : Mem.ChangesOnly a.Touched a.entry.mem s.mem

/-- Both go on to other nodes, and nothing else happens. -/
theorem Stands.elsewhere (stands : a.Stands r name code ahead ir position s)
    {position' : List Instr} (goes : r.Goes (name, position) s (name, position') s)
    (at_ : a.At ahead' position') (inside : position' <:+ code) :
    a.Stands r name code ahead' ir position' s :=
  ⟨stands.seen.goes goes, at_, stands.corresponds, inside, stands.changed⟩

/-- The code of a branch. -/
theorem Corresponds.branches (m : AsmWorld σ) (corresponds : a.Corresponds ir s) {t : Nat}
    {value : Word} (found : ir.temps t = some value) (code rest : List Instr) (id idF : Nat) :
    ∃ n, Path (asmStep m code) n ([ld .rax t, .test .rax .rax, .jnz id, .jmp idF] ++ rest) s
      (instrTarget (if value ≠ 0 then id else idF) code)
      ((s.setReg .rax value).setFlags (some (testFlags value value))) := by
  let tested := (s.setReg .rax value).setFlags (some (testFlags value value))
  have load : asmStep m code (ld .rax t :: .test .rax .rax :: .jnz id :: .jmp idF :: rest) s =
      .ok (.more (.test .rax .rax :: .jnz id :: .jmp idF :: rest)) (s.setReg .rax value) :=
    asmStep_exec (corresponds.ld_exec found .rax)
  have test : asmStep m code (.test .rax .rax :: .jnz id :: .jmp idF :: rest) (s.setReg .rax value) =
      .ok (.more (.jnz id :: .jmp idF :: rest)) tested := rfl
  have jump : asmStep m code (.jnz id :: .jmp idF :: rest) tested =
      .ok (.more (if value &&& value == 0 then .jmp idF :: rest else instrTarget id code)) tested :=
    rfl
  rw [BitVec.and_self] at jump
  by_cases nonzero : value ≠ 0
  · rw [if_neg (by simpa using nonzero)] at jump
    rw [if_pos nonzero]
    exact ⟨3, .cons load (.cons test (.one jump))⟩
  · rw [if_pos (by simpa using nonzero)] at jump
    rw [if_neg nonzero]
    exact ⟨4, .cons load (.cons test (.cons jump (.one rfl)))⟩

theorem Good.of_grows (grows : ir.Grows ir') (good : a.Good ir') : a.Good ir :=
  fun event member => good event (grows.subset member)

/-- An operation, or a call. -/
theorem Linked.straight (linked : a.Linked r w name code shared) {node : IrNode}
    (stands : a.Stands r name code (node :: ahead) ir position s) (valid : node.Valid)
    (straight : (∃ d op x y imm var, node = .operation d op x y imm var) ∨
      ∃ d callee args, node = .call d callee args)
    (did : node.exec w (a.cell (countAllocs a.nodes - countAllocs (node :: ahead))) ir = .ok () ir')
    (good : a.Good ir') : ∃ position' s',
      r.Goes (name, position) s (name, position') s' ∧ a.Stands r name code ahead ir' position' s' := by
  obtain ⟨lines, next, rest, rfl, accepted, member, onward⟩ := stands.at_.cons
  have inside : rest <:+ code := (List.suffix_append _ _).trans stands.inside
  rcases straight with ⟨d, op, x, y, imm, var, rfl⟩ | ⟨d, callee, args, rfl⟩
  · have silent (cell : Word) : execOp w.silent cell d op x y imm var ir =
        execOp w cell d op x y imm var ir := by
      cases op <;> rfl
    have follows := operation_follows linked.links stands.corresponds valid member accepted
    rw [silent, show execOp w _ d op x y imm var ir = _ from did] at follows
    obtain ⟨s', ran, after⟩ := follows good
    have changes := operation_changes linked.links stands.corresponds member accepted
      ((silent _).trans did) good ran
    have goes : r.Goes (name, lines ++ rest) s (name, rest) s' := Process.goes_lines linked.found ran
    exact ⟨rest, s', goes, stands.seen.goes goes, onward, after, inside,
      stands.changed.trans changes⟩
  · cases accepted
    obtain ⟨s', goes, after, changes⟩ := call_followed linked.found linked.same linked.answered
      stands.corresponds valid member stands.inside stands.seen did
    exact ⟨rest, s', goes, stands.seen.goes goes, onward, after, inside,
      stands.changed.trans changes⟩

/-- One node: where the IR machine goes, the processor goes. -/
theorem Linked.step (linked : a.Linked r w name code shared) (valid : ∀ node ∈ a.nodes, node.Valid)
    (generated : asmNodes a.maxT a.nodes 1 = .ok body)
    (targets : ∀ id, instrTarget id code = instrTarget id body)
    (stands : a.Stands r name code ahead ir position s)
    (stepped : irStep w a.cell a.nodes ahead ir = .ok (.more ahead') ir') (good : a.Good ir') :
    ∃ position' s', r.Goes (name, position) s (name, position') s' ∧
      a.Stands r name code ahead' ir' position' s' := by
  have jumps (id : Nat) : a.At (labelTarget id a.nodes) (instrTarget id code) ∧
      instrTarget id code <:+ code := by
    refine ⟨?_, List.dropWhile_suffix _⟩
    rw [targets]
    exact instrTarget_asmNodes id generated
  cases ahead with
  | nil => cases stepped
  | cons node ahead =>
      obtain ⟨lines, next, rest, same, accepted, member, onward⟩ := stands.at_.cons
      have inside : rest <:+ code := (List.suffix_append lines _).trans (same ▸ stands.inside)
      have passes (straight : (∃ d op x y imm var, node = .operation d op x y imm var) ∨
          ∃ d callee args, node = .call d callee args)
          (step : irStep w a.cell a.nodes (node :: ahead) = do
            node.exec w (a.cell (countAllocs a.nodes - countAllocs (node :: ahead)))
            return .more ahead) : ∃ position' s',
            r.Goes (name, position) s (name, position') s' ∧
              a.Stands r name code ahead' ir' position' s' := by
        rw [step] at stepped
        obtain ⟨u, middle, did, rest⟩ := bind_eq_ok.mp stepped
        cases rest
        exact linked.straight stands (valid node member) straight did good
      cases node with
      | operation d op x y imm var => exact passes (.inl ⟨d, op, x, y, imm, var, rfl⟩) rfl
      | call d callee args => exact passes (.inr ⟨d, callee, args, rfl⟩) rfl
      | label id =>
          cases accepted
          cases stepped
          subst same
          have goes : r.Goes (name, [.label id] ++ rest) s (name, rest) s :=
            Process.goes_path linked.found (.one rfl)
          exact ⟨rest, s, goes, stands.elsewhere goes onward inside⟩
      | jump id =>
          cases accepted
          cases stepped
          subst same
          obtain ⟨at_, inside⟩ := jumps id
          have goes : r.Goes (name, [.jmp id] ++ rest) s (name, instrTarget id code) s :=
            Process.goes_path linked.found (.one rfl)
          exact ⟨_, s, goes, stands.elsewhere goes at_ inside⟩
      | branch id idF t =>
          cases accepted
          subst same
          cases found : ir.temps t with
          | none =>
              rw [irStep, bind_run_of_error (readTemp_none found)] at stepped
              cases stepped
          | some value =>
              have test : onStore (testWord value) ir =
                  .ok (decide (value ≠ 0)) ⟨ir.temps, ir.store.log (.test value)⟩ := rfl
              rw [irStep, bind_run_of_ok (readTemp_some found), bind_run_of_ok test] at stepped
              simp only [decide_eq_true_eq] at stepped
              cases stepped
              obtain ⟨n, path⟩ :=
                stands.corresponds.branches (r.world name) found code rest id idF
              have kept : s.Kept ((s.setReg .rax value).setFlags (some (testFlags value value))) :=
                ⟨rfl, rfl, rfl, rfl⟩
              obtain ⟨at_, inside⟩ := jumps (if value ≠ 0 then id else idF)
              have goes := Process.goes_path linked.found path
              exact ⟨_, _, goes, stands.seen.goes goes, at_,
                (stands.corresponds.kept kept).relog rfl rfl, inside, stands.changed⟩
      | ret t =>
          rw [irStep] at stepped
          split at stepped
          · cases stepped
          · obtain ⟨value, middle, _, rest⟩ := bind_eq_ok.mp stepped
            cases rest

theorem Linked.run (linked : a.Linked r w name code shared) (valid : ∀ node ∈ a.nodes, node.Valid)
    (generated : asmNodes a.maxT a.nodes 1 = .ok body)
    (targets : ∀ id, instrTarget id code = instrTarget id body) {n : Nat}
    (path : Path (irStep w a.cell a.nodes) n ahead ir ahead' ir') (good : a.Good ir')
    (stands : a.Stands r name code ahead ir position s) : ∃ position' s',
      r.Goes (name, position) s (name, position') s' ∧ a.Stands r name code ahead' ir' position' s' := by
  induction path generalizing position s with
  | refl => exact ⟨position, s, .refl _ _, stands⟩
  | cons stepped rest ih =>
      obtain ⟨middle, t, first, stands'⟩ :=
        linked.step valid generated targets stands stepped (rest.earlier
          (fun ahead _ _ _ ran => .of_grows ((Grows.irStep w a.cell a.nodes ahead).of_ok ran)) good)
      obtain ⟨position', s', second, stands''⟩ := ih good stands'
      exact ⟨position', s', first.trans second, stands''⟩

/-- The code of a return, up to the `ret`. -/
theorem Linked.leaves (linked : a.Linked r w name code shared) {live : Word → Bool}
    (alive : ∀ addr, live addr = true ↔ a.outer addr)
    (stands : a.Stands r name code ahead ir position s) {value : Word}
    (stepped : irStep w a.cell a.nodes ahead ir = .ok (.done value) ir') : ∃ rest s',
      r.Goes (name, position) s (name, .ret :: rest) s' ∧
        Returning a.depth live (value, ir'.store.mem, ir'.store.outside) a.entry s' := by
  obtain ⟨least, room, near⟩ := a.sizes
  have leaving (rest : List Instr) {loaded : AsmState σ} (kept : s.Kept loaded)
      (rax : loaded.regs .rax = value) :
      ∃ s', r.Goes (name, .leave :: .ret :: rest) loaded (name, .ret :: rest) s' ∧
        Returning a.depth live (value, ir.store.mem, ir.store.outside) a.entry s' := by
    have corresponds := stands.corresponds.kept kept
    let left := (loaded.setReg .rsp (loaded.regs .rbp + 8)).setReg .rbp
      (loaded.mem.load (loaded.regs .rbp))
    have leave : asmStep (r.world name) code (.leave :: .ret :: rest) loaded =
        .ok (.more (.ret :: rest)) left := rfl
    have top : left.regs .rsp = a.entry.regs .rsp := by
      change loaded.regs .rbp + 8 = _
      rw [corresponds.rbp]
      exact BitVec.sub_add_cancel _ _
    refine ⟨left, Process.goes_path linked.found (.one leave), ?_, ?_⟩
    · rw [top]
      exact corresponds.back
    · constructor
      case rax => exact rax
      case rbp =>
        change loaded.mem.load (loaded.regs .rbp) = _
        rw [corresponds.rbp, corresponds.saved]
      case rsp =>
        change left.regs .rsp + 8 = _
        rw [top]
      case shared => exact corresponds.shared.mono fun addr member => .inl ((alive addr).mp member)
      case outside => exact corresponds.outside
      case changed =>
        change Mem.ChangesOnly _ _ loaded.mem
        rw [kept.mem]
        refine stands.changed.mono ?_
        rintro addr ((member | ⟨k, small, rfl⟩) | inside)
        · exact .inl ((alive addr).mpr member)
        · exact .inr ⟨a.maxT + (1 + k) + 1, by omega, by omega, a.slot_eq _⟩
        · exact .inr inside
  cases ahead with
  | nil => cases stepped
  | cons node ahead =>
      obtain ⟨lines, next, rest, same, accepted, member, onward⟩ := stands.at_.cons
      cases node with
      | operation | call =>
          obtain ⟨_, _, _, impossible⟩ := bind_eq_ok.mp stepped
          cases impossible
      | label | jump => cases stepped
      | branch id idF t =>
          obtain ⟨_, _, _, rest⟩ := bind_eq_ok.mp stepped
          obtain ⟨_, _, _, impossible⟩ := bind_eq_ok.mp rest
          cases impossible
      | ret t =>
          cases accepted
          subst same
          rw [irStep] at stepped
          by_cases empty : t = 0
          · subst empty
            rw [if_pos rfl] at stepped
            cases stepped
            obtain ⟨s', goes, returning⟩ := leaving rest
              (show s.Kept ((s.setReg .rax 0).setFlags none) from ⟨rfl, rfl, rfl, rfl⟩) rfl
            exact ⟨rest, s', (Process.goes_path linked.found (.one rfl)).trans goes, returning⟩
          · rw [if_neg empty] at stepped
            cases found : ir.temps t with
            | none =>
                rw [bind_run_of_error (readTemp_none found)] at stepped
                cases stepped
            | some word =>
                rw [bind_run_of_ok (readTemp_some found)] at stepped
                cases stepped
                obtain ⟨s', goes, returning⟩ := leaving rest
                  (show s.Kept (s.setReg .rax value) from ⟨rfl, rfl, rfl, rfl⟩) rfl
                have load : asmStep (r.world name) code (ld .rax t :: .leave :: .ret :: rest) s =
                    .ok (.more (.leave :: .ret :: rest)) (s.setReg .rax value) :=
                  asmStep_exec (stands.corresponds.ld_exec found .rax)
                rw [if_pos empty]
                exact ⟨rest, s', (Process.goes_path linked.found (.one load)).trans goes, returning⟩

/-- A function that returns on the IR machine gets the processor to its `ret`. -/
theorem Linked.returns (linked : a.Linked r w name code shared) {live : Word → Bool}
    (alive : ∀ addr, live addr = true ↔ a.outer addr) (valid : ∀ node ∈ a.nodes, node.Valid)
    (accepted : asmFunction a.params a.nodes = .ok code) {mem : Mem}
    (agree : Mem.AgreeOn a.Shared mem a.entry.mem) {value : Word} {final : IrState σ}
    (ends : Ends (irStep w a.cell a.nodes) a.nodes (a.start mem) (.ok value final))
    (good : a.Good final) (seen : r.Seen (name, code) a.entry) : ∃ rest s', r.Goes (name, code) a.entry (name, .ret :: rest) s' ∧
      Returning a.depth live (value, final.store.mem, final.store.outside) a.entry s' := by
  obtain ⟨least, room, near⟩ := a.sizes
  have params := a.params_le
  obtain ⟨body, generated, rfl⟩ := asmFunction_ok accepted
  obtain ⟨framed, prologue, frame⟩ := asmPrologue_runs (m := r.world name) a.entry a.maxT a.nAlloc
    (show 2 * a.params + 2 < 2 ^ 61 by omega)
  have entered : r.Goes (name, asmPrologue a.params a.maxT a.nAlloc ++ body) a.entry (name, body)
      framed := Process.goes_lines linked.found prologue
  have start : a.Stands r name (asmPrologue a.params a.maxT a.nAlloc ++ body) a.nodes (a.start mem)
      body framed := by
    refine ⟨seen.goes entered, ⟨[], rfl, generated⟩, corresponds_start agree frame,
      List.suffix_append _ _, ?_⟩
    refine frame.changed.mono ?_
    rintro addr ⟨k, _, small, rfl⟩
    exact .inr ⟨k + 1, by omega, by omega, a.slot_eq k⟩
  obtain ⟨n, ahead, ir, path, last⟩ := ends
  have good' : a.Good ir := good.of_grows ((Grows.irStep w a.cell a.nodes ahead).of_ok last)
  obtain ⟨position, s, ran, stands⟩ := linked.run valid generated
    (fun id => instrTarget_append (asmPrologue_unlabelled a.params a.maxT a.nAlloc id)) path good' start
  obtain ⟨rest, s', left, returning⟩ := linked.leaves alive stands last
  exact ⟨rest, s', (entered.trans ran).trans left, returning⟩

end Activation

end Trident
