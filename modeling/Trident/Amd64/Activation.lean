import Trident.Amd64.Calls
import Trident.Ir.Emitted

/-! The frame of an activation: which words hold temporaries, which are the words
of `OP_ALLOC` nodes, and when a state of the processor stands for one of the IR
machine. -/

set_option autoImplicit false

namespace Trident

open Foundation

variable {σ : Type}

private theorem foldl_maxTemp_ge (nodes : List IrNode) (start : Nat) :
    start ≤ maxTemp start nodes ∧ ∀ node ∈ nodes, ∀ d, node.dest? = some d →
      d ≤ maxTemp start nodes := by
  induction nodes generalizing start with
  | nil => exact ⟨Nat.le_refl start, nofun⟩
  | cons node nodes ih =>
      let next := maxTemp start [node]
      have split : maxTemp start (node :: nodes) = maxTemp next nodes := rfl
      have step : start ≤ next ∧ ∀ d, node.dest? = some d → d ≤ next := by
        cases node with
        | operation d op a b imm name =>
            have same : next = if d > start then d else start := rfl
            refine ⟨by rw [same]; split <;> omega, fun t dest => ?_⟩
            have written : d = t := by
              cases op <;> cases dest <;> rfl
            rw [same, ← written]
            split <;> omega
        | call d name args =>
            have same : next = if d > start then d else start := rfl
            refine ⟨by rw [same]; split <;> omega, fun t dest => ?_⟩
            cases dest
            rw [same]
            split <;> omega
        | label | jump | branch | ret => exact ⟨Nat.le_refl start, nofun⟩
      obtain ⟨low, rest⟩ := ih next
      rw [split]
      refine ⟨Nat.le_trans step.1 low, fun other member d dest => ?_⟩
      obtain rfl | later := List.mem_cons.mp member
      · exact Nat.le_trans (step.2 d dest) low
      · exact rest other later d dest

private theorem params_le_maxTemp (params : Nat) (nodes : List IrNode) : params ≤ maxTemp params nodes :=
  (foldl_maxTemp_ge nodes params).1

theorem dest_le_maxTemp {params d : Nat} {nodes : List IrNode} {node : IrNode}
    (member : node ∈ nodes) (dest : node.dest? = some d) : d ≤ maxTemp params nodes :=
  (foldl_maxTemp_ge nodes params).2 node member d dest

/-- A call of a function that has these nodes, from the state at its entry. The
words `outer` are those that the program may use besides the frame: globals, and
what other activations have allocated. The stack reaches `depth` words down from
the return address, enough for the frame and for the arguments of calls. -/
structure Activation (σ : Type) where
  entry : AsmState σ
  params : Nat
  nodes : List IrNode
  outer : Word → Prop
  depth : Nat
  room : frameWords (maxTemp params nodes) (countAllocs nodes) + 2 ≤ depth
  calls : ∀ d name args, .call d name args ∈ nodes →
    frameWords (maxTemp params nodes) (countAllocs nodes) + callWords args.length + 3 ≤ depth
  near : depth ≤ 2 ^ 60
  apart : ∀ addr, outer addr → ∀ k < depth, Mem.Apart (stackWord (entry.regs .rsp) k) addr

theorem near_sixteen : 16 ≤ 2 ^ 60 := by decide

namespace Activation

variable (a : Activation σ)

def maxT : Nat := maxTemp a.params a.nodes

def nAlloc : Nat := countAllocs a.nodes

/-- The number of words below the base pointer. -/
def frame : Nat := frameWords a.maxT a.nAlloc

def bp : Word := a.entry.regs .rsp - 8

def slot (t : Nat) : Word := stackWord a.bp t

/-- The word of the `OP_ALLOC` that has `k` others before it. -/
def cell (k : Nat) : Word := stackWord a.bp (a.maxT + (1 + k))

/-- The words that loads and stores of the program may go to. -/
def Shared (addr : Word) : Prop := a.outer addr ∨ ∃ k < a.nAlloc, addr = a.cell k

/-- The words that the function relies on: the return address, the saved base
pointer and the slots of the temporaries. -/
def Private (addr : Word) : Prop := StackRange (a.entry.regs .rsp) 0 (a.maxT + 2) addr

/-- The arguments, where the prologue finds them. -/
def args : List Word := (List.range a.params).map fun i => a.entry.incoming a.bp i

theorem slot_eq (k : Nat) : a.slot k = stackWord (a.entry.regs .rsp) (k + 1) := by
  have bp : a.bp = stackWord (a.entry.regs .rsp) 1 := rfl
  rw [slot, bp, stackWord, stackWord_sub, Nat.add_comm]

theorem sizes : a.maxT + a.nAlloc ≤ a.frame ∧ a.frame + 2 ≤ a.depth ∧ a.depth ≤ 2 ^ 60 :=
  ⟨le_frameWords _ _, a.room, a.near⟩

theorem params_le : a.params ≤ a.maxT := params_le_maxTemp _ _

theorem private_slot {k : Nat} (small : k ≤ a.maxT) : a.Private (a.slot k) :=
  ⟨k + 1, Nat.zero_le _, by omega, a.slot_eq k⟩

variable {a}

/-- The words of the frame that are not those of an `OP_ALLOC`, and the words
below it, are apart from all that is shared. -/
theorem slot_apart {k : Nat} {addr : Word} (place : k ≤ a.maxT ∨ a.frame < k)
    (deep : k + 1 < a.depth) (shared : a.Shared addr) : Mem.Apart (a.slot k) addr := by
  obtain ⟨least, room, near⟩ := a.sizes
  rcases shared with outer | ⟨j, small, rfl⟩
  · rw [slot_eq]
    exact a.apart addr outer (k + 1) deep
  · exact stackWord_apart (by omega) (by omega) (by omega)

theorem private_apart {addr other : Word} (own : a.Private addr) (shared : a.Shared other) :
    Mem.Apart addr other := by
  obtain ⟨least, room, near⟩ := a.sizes
  obtain ⟨k, _, small, rfl⟩ := own
  cases k with
  | zero =>
      rcases shared with outer | ⟨j, small, rfl⟩
      · exact a.apart other outer 0 (by omega)
      · have cell : a.cell j = stackWord (a.entry.regs .rsp) (a.maxT + (1 + j) + 1) := a.slot_eq _
        rw [cell]
        exact stackWord_apart (by omega) (by omega) (by omega)
  | succ k =>
      rw [← slot_eq]
      exact slot_apart (.inl (by omega)) (by omega) shared

/-- A cell lies in the frame, apart from the slots and from the other cells. -/
theorem cell_layout {k : Nat} (small : k < a.nAlloc) : StackRange a.bp 1 (a.frame + 1) (a.cell k) ∧
    (∀ t ≤ a.maxT, Mem.Apart (a.slot t) (a.cell k)) ∧
    ∀ j < a.nAlloc, j ≠ k → Mem.Apart (a.cell j) (a.cell k) := by
  obtain ⟨least, room, near⟩ := a.sizes
  refine ⟨⟨_, by omega, by omega, rfl⟩, fun t low => ?_, fun j within other => ?_⟩
  · exact slot_apart (.inl low) (by omega) (.inr ⟨k, small, rfl⟩)
  · exact stackWord_apart (by omega) (by omega) (by omega)

end Activation

/-- A state of the IR machine and one of the processor, between two nodes. -/
structure Activation.Corresponds (a : Activation σ) (ir : IrState σ) (s : AsmState σ) : Prop where
  rbp : s.regs .rbp = a.bp
  rsp : s.regs .rsp = stackWord a.bp a.frame
  temps : ∀ t value, ir.temps t = some value →
    t ≠ 0 ∧ t ≤ a.maxT ∧ s.mem.load (a.slot t) = value
  shared : Mem.AgreeOn a.Shared ir.store.mem s.mem
  saved : s.mem.load a.bp = a.entry.regs .rbp
  back : s.mem.load (a.entry.regs .rsp) = a.entry.mem.load (a.entry.regs .rsp)
  outside : s.outside = ir.store.outside

namespace Activation.Corresponds

variable {a : Activation σ} {ir : IrState σ} {s s' : AsmState σ}

theorem kept (corresponds : a.Corresponds ir s) (kept : s.Kept s') : a.Corresponds ir s' where
  rbp := kept.rbp.trans corresponds.rbp
  rsp := kept.rsp.trans corresponds.rsp
  temps t value found := by
    rw [kept.mem]
    exact corresponds.temps t value found
  shared := kept.mem ▸ corresponds.shared
  saved := kept.mem ▸ corresponds.saved
  back := kept.mem ▸ corresponds.back
  outside := kept.outside.trans corresponds.outside

/-- What is logged does not matter. -/
theorem relog (corresponds : a.Corresponds ir s) {store : Store σ}
    (mem : store.mem = ir.store.mem) (outside : store.outside = ir.store.outside) :
    a.Corresponds { ir with store } s where
  rbp := corresponds.rbp
  rsp := corresponds.rsp
  temps := corresponds.temps
  shared := mem ▸ corresponds.shared
  saved := corresponds.saved
  back := corresponds.back
  outside := corresponds.outside.trans outside.symm

/-- A step that leaves the words alone that the function relies on. -/
theorem carry (corresponds : a.Corresponds ir s) {store : Store σ} (rbp : s'.regs .rbp = a.bp)
    (rsp : s'.regs .rsp = stackWord a.bp a.frame) (own : Mem.AgreeOn a.Private s.mem s'.mem)
    (shared : Mem.AgreeOn a.Shared store.mem s'.mem) (outside : s'.outside = store.outside) :
    a.Corresponds { ir with store } s' where
  rbp := rbp
  rsp := rsp
  temps t value found := by
    obtain ⟨positive, small, loaded⟩ := corresponds.temps t value found
    refine ⟨positive, small, ?_⟩
    rw [← loaded]
    exact (own.load (a.private_slot small)).symm
  shared := shared
  saved := by
    have slot : a.slot 0 = a.bp := stackWord_zero _
    rw [← corresponds.saved, ← slot]
    exact (own.load (a.private_slot (Nat.zero_le _))).symm
  back := by
    have top : a.Private (a.entry.regs .rsp) :=
      ⟨0, Nat.le_refl 0, by omega, (stackWord_zero _).symm⟩
    rw [← corresponds.back]
    exact (own.load top).symm
  outside := outside

/-- Both machines store the same word to a shared address. -/
theorem store (corresponds : a.Corresponds ir s) {addr : Word} (value : Word) {store : Store σ}
    (shared : a.Shared addr) (mem : store.mem = ir.store.mem.store addr value)
    (outside : store.outside = ir.store.outside) :
    a.Corresponds { ir with store } { s with mem := s.mem.store addr value } := by
  have own : Mem.AgreeOn a.Private s.mem (s.mem.store addr value) :=
    (Mem.AgreeOn.refl _ _).store_apart fun other member => (private_apart member shared).symm
  refine corresponds.carry corresponds.rbp corresponds.rsp own ?_
    (corresponds.outside.trans outside.symm)
  rw [mem]
  exact corresponds.shared.store addr value

/-- A temporary is written, and its slot with it. -/
theorem write (corresponds : a.Corresponds ir s) {d : Nat} (value : Word) (positive : d ≠ 0)
    (small : d ≤ a.maxT) : a.Corresponds { ir with temps := Function.update ir.temps d (some value) }
      { s with mem := s.mem.store (a.slot d) value } where
  rbp := corresponds.rbp
  rsp := corresponds.rsp
  temps t word found := by
    obtain ⟨least, room, near⟩ := a.sizes
    change Function.update ir.temps d (some value) t = some word at found
    by_cases same : t = d
    · subst same
      rw [Function.update_self] at found
      cases found
      exact ⟨positive, small, Mem.load_store _ _ _⟩
    · rw [Function.update_of_ne same] at found
      obtain ⟨low, high, loaded⟩ := corresponds.temps t word found
      refine ⟨low, high, ?_⟩
      rw [← loaded]
      exact Mem.load_store_apart (stackWord_apart (Ne.symm same) (by omega) (by omega))
  shared := corresponds.shared.store_apart fun other shared =>
    private_apart (a.private_slot small) shared
  saved := by
    obtain ⟨least, room, near⟩ := a.sizes
    have slot : a.slot 0 = a.bp := stackWord_zero _
    rw [← corresponds.saved, ← slot]
    exact Mem.load_store_apart (stackWord_apart positive (by omega) (by omega))
  back := by
    obtain ⟨least, room, near⟩ := a.sizes
    rw [← corresponds.back, slot_eq]
    exact Mem.load_store_apart (stackWord_apart_top (Nat.succ_pos d) (by omega))
  outside := corresponds.outside

end Activation.Corresponds

end Trident
