import Trident.Amd64.Activation
import Trident.Ir.Visits

/-! The words of the `auto` vectors of a function in the frame of an activation.
An `OP_ALLOC` node reserves one word, whatever the size of the vector, and the
elements of a vector go up from it. -/

set_option autoImplicit false

namespace Trident

open Foundation

/-- A declaration in a function, with the number of `OP_ALLOC` nodes before its own. -/
structure AutoVector where
  name : CStr
  size : Nat
  index : Nat

private theorem countAllocs_append (first second : List IrNode) :
    countAllocs (first ++ second) = countAllocs first + countAllocs second :=
  List.countP_append

namespace Visit

variable {v w : Visit} {name : CStr} {size : Nat}

/-- The nodes after a declaration. -/
theorem Ends.of_auto {final : Ir} (part : v.part = .phrase (.stmt (.auto name size)))
    (ended : v.Ends final) :
    final.nodes = v.ir.nodes ++ [.operation (v.ir.tempC + 1) .alloc 0 0] := by
  unfold Ends action at ended
  rw [part] at ended
  obtain ⟨id, info, table, stored, _, _, _, rfl⟩ := irAutoS_ok ended
  rfl

theorem Before.of_auto (part : v.part = .phrase (.stmt (.auto name size)))
    (before : v.Before w) : countAllocs v.ir.nodes < countAllocs w.ir.nodes := by
  obtain ⟨final, ended, later⟩ := before
  obtain ⟨code, nodes⟩ := later.isPrefix
  rw [← nodes, ended.of_auto part, countAllocs_append, countAllocs_append]
  have one : countAllocs [.operation (v.ir.tempC + 1) .alloc 0 0] = 1 := rfl
  omega

end Visit

private theorem countAllocs_paramCode (params i t : Nat) : countAllocs (paramCode params i t) = params := by
  induction params generalizing i t with
  | zero => rfl
  | succ params ih =>
      change countAllocs ([.operation (t + 1) .alloc 0 0, .operation 0 .store (t + 1) i,
        .operation i .address (t + 1) 0] ++ paramCode params (i + 1) (t + 1)) = params + 1
      rw [countAllocs_append, ih]
      exact Nat.add_comm 1 params

namespace FunctionRun

variable (run : FunctionRun)

def Declares (vector : AutoVector) : Prop :=
  ∃ visit : Visit, run.start.Reaches visit ∧
    visit.part = .phrase (.stmt (.auto vector.name vector.size)) ∧
    countAllocs visit.ir.nodes = vector.index

theorem start_allocs : countAllocs run.start.ir.nodes = run.params := by
  change countAllocs ([.label 1] ++ paramCode run.params 1 run.params) = run.params
  rw [countAllocs_append, countAllocs_paramCode]
  exact Nat.zero_add _

variable {run} {vector other : AutoVector}

theorem Declares.alloc (declared : run.Declares vector) :
    ∃ before t after, run.nodes = before ++ .operation t .alloc 0 0 :: after ∧
      countAllocs before = vector.index := by
  obtain ⟨visit, reached, part, index⟩ := declared
  obtain ⟨final, ended, after, nodes⟩ := run.reaches_ends reached
  refine ⟨visit.ir.nodes, visit.ir.tempC + 1, after, ?_, index⟩
  rw [← nodes, ended.of_auto part, List.append_assoc]
  rfl

theorem Declares.index_lt (declared : run.Declares vector) :
    vector.index < countAllocs run.nodes := by
  obtain ⟨before, t, after, nodes, index⟩ := declared.alloc
  rw [nodes, countAllocs_append, index]
  have more : countAllocs (.operation t .alloc 0 0 :: after) = countAllocs after + 1 :=
    List.countP_cons_of_pos rfl
  omega

/-- The parameters come first. -/
theorem Declares.params_le (declared : run.Declares vector) : run.params ≤ vector.index := by
  obtain ⟨visit, reached, part, index⟩ := declared
  obtain ⟨code, nodes⟩ := reached.starts.isPrefix
  rw [← index, ← nodes, countAllocs_append, run.start_allocs]
  exact Nat.le_add_right _ _

theorem Declares.eq_of_index (declared : run.Declares vector) (declared' : run.Declares other)
    (same : vector.index = other.index) : vector = other := by
  obtain ⟨visit, reached, part, index⟩ := declared
  obtain ⟨visit', reached', part', index'⟩ := declared'
  have counts : countAllocs visit.ir.nodes = countAllocs visit'.ir.nodes := by
    rw [index, index', same]
  have equal : visit = visit' := by
    rcases reached.linear reached' with inside | inside | before | before
    · exact (inside.of_auto part).symm
    · exact inside.of_auto part'
    · exact absurd counts (Nat.ne_of_lt (before.of_auto part))
    · exact absurd counts (Nat.ne_of_gt (before.of_auto part'))
  subst equal
  obtain ⟨name, size, index⟩ := vector
  obtain ⟨name', size', index'⟩ := other
  cases part.symm.trans part'
  cases same
  rfl

end FunctionRun

namespace Activation

variable {σ : Type} (a : Activation σ)

/-- The word that `vector[i]` addresses. -/
def word (vector : AutoVector) (i : Nat) : Word :=
  a.cell vector.index + BitVec.ofNat 64 (8 * i)

/-- The words of a vector lie in the frame, apart from the slots of temporaries,
the saved base pointer and the return address, from the word of every other
`OP_ALLOC`, which parameters have too, and from the words of the other vectors. -/
structure Stores (declared : AutoVector → Prop) (vector : AutoVector) : Prop where
  inside : ∀ i < vector.size, StackRange a.bp 1 (a.frame + 1) (a.word vector i)
  reserved : ∀ i < vector.size, ∀ addr, a.Private addr → Mem.Apart addr (a.word vector i)
  cells : ∀ i < vector.size, ∀ j < a.nAlloc, j ≠ vector.index →
    Mem.Apart (a.cell j) (a.word vector i)
  others : ∀ other, declared other → other ≠ vector → ∀ i < vector.size, ∀ j < other.size,
    Mem.Apart (a.word other j) (a.word vector i)

variable {a} {declared : AutoVector → Prop} {vector : AutoVector}

theorem word_zero (vector : AutoVector) : a.word vector 0 = a.cell vector.index := by
  simp [word]

/-- The second word of a vector is the one above its own. -/
theorem word_one (vector : AutoVector) :
    a.word vector 1 = stackWord a.bp (a.maxT + vector.index) := by
  unfold word cell
  rw [stackWord_add _ _ _ (by omega)]
  congr 1
  omega

theorem not_apart_self (addr : Word) : ¬ Mem.Apart addr addr := by
  simp [Mem.Apart, Mem.offset]

/-- The instructions of an `OP_ALLOC` node with `k` others before it leave the
address of cell `k` in the slot of its temporary. -/
theorem alloc_code (t k : Nat) :
    ∃ disp, asmNode (.operation t .alloc 0 0) (1 + k) a.maxT =
        .ok ([.lea .rax (.mem .rbp disp), st t .rax], 1 + k + 1) ∧
      ∀ (m : AsmWorld σ) (s : AsmState σ), s.regs .rbp = a.bp →
        s.addr m (.mem .rbp disp) = some (a.cell k) := by
  refine ⟨_, rfl, fun m s rbp => ?_⟩
  unfold cell stackWord
  change some (s.regs .rbp + BitVec.ofInt 64 (-((a.maxT + (1 + k)) * 8 : Nat))) = _
  rw [rbp, Nat.mul_comm, BitVec.ofInt_neg, BitVec.ofInt_natCast, BitVec.sub_eq_add_neg]

/-- A variable of one word has its storage, if all the others have one word at most. -/
theorem stores_of_small (within : vector.index < a.nAlloc) (small : vector.size ≤ 1)
    (others : ∀ other, declared other → other ≠ vector →
      other.size ≤ 1 ∧ other.index < a.nAlloc ∧ other.index ≠ vector.index) :
    a.Stores declared vector := by
  have only : ∀ i < vector.size, a.word vector i = a.cell vector.index := by
    intro i less
    obtain rfl : i = 0 := by omega
    exact word_zero vector
  obtain ⟨inside, slots, cells⟩ := cell_layout within
  constructor
  · intro i less
    rw [only i less]
    exact inside
  · intro i less addr reserved
    rw [only i less]
    exact private_apart reserved (.inr ⟨_, within, rfl⟩)
  · intro i less j within' other
    rw [only i less]
    exact cells j within' other
  · intro other declared different i less j less'
    obtain ⟨small', within', apart⟩ := others other declared different
    obtain rfl : j = 0 := by omega
    rw [only i less, word_zero]
    exact cells _ within' apart

/-- The second word of a vector is the slot of the last temporary, or the word of
the `OP_ALLOC` before its own. -/
theorem not_stores_of_large (within : vector.index < a.nAlloc) (large : 1 < vector.size) :
    ¬ a.Stores declared vector := by
  intro stores
  cases position : vector.index with
  | zero =>
      have same : a.word vector 1 = a.slot a.maxT := by
        rw [word_one, position]
        rfl
      have apart := stores.reserved 1 large _ (a.private_slot (Nat.le_refl _))
      rw [same] at apart
      exact not_apart_self _ apart
  | succ k =>
      have same : a.word vector 1 = a.cell k := by
        rw [word_one, position, Nat.add_comm k]
        rfl
      have apart := stores.cells 1 large k (by omega) (by omega)
      rw [same] at apart
      exact not_apart_self _ apart

end Activation

/-- The vectors of a function have their storage exactly when none of them has
more than one word: `size` is not used by any later stage. -/
theorem FunctionRun.vectors_stored {σ : Type} (run : FunctionRun) (a : Activation σ)
    (params : a.params = run.params) (nodes : a.nodes = run.nodes) :
    (∀ vector, run.Declares vector → a.params ≤ vector.index ∧ ∃ before t after disp,
      a.nodes = before ++ .operation t .alloc 0 0 :: after ∧ countAllocs before = vector.index ∧
      asmNode (.operation t .alloc 0 0) (1 + vector.index) a.maxT =
        .ok ([.lea .rax (.mem .rbp disp), st t .rax], 1 + vector.index + 1) ∧
      ∀ (m : AsmWorld σ) (s : AsmState σ), s.regs .rbp = a.bp →
        s.addr m (.mem .rbp disp) = some (a.word vector 0)) ∧
    ((∀ vector, run.Declares vector → 1 ≤ vector.size → a.Stores run.Declares vector) ↔
      ∀ vector, run.Declares vector → vector.size ≤ 1) := by
  have within : ∀ vector, run.Declares vector → vector.index < a.nAlloc := by
    intro vector declared
    unfold Activation.nAlloc
    rw [nodes]
    exact declared.index_lt
  refine ⟨fun vector declared => ⟨params ▸ declared.params_le, ?_⟩, fun stored vector declared => ?_,
    fun small vector declared _ => ?_⟩
  · obtain ⟨before, t, after, split, index⟩ := declared.alloc
    obtain ⟨disp, code, address⟩ := a.alloc_code t vector.index
    rw [← a.word_zero vector] at address
    exact ⟨before, t, after, disp, nodes.trans split, index, code, address⟩
  · by_contra large
    exact Activation.not_stores_of_large (within vector declared) (by omega)
      (stored vector declared (by omega))
  · refine Activation.stores_of_small (within vector declared) (small vector declared) ?_
    intro other declared' different
    exact ⟨small other declared', within other declared',
      fun same => different (declared'.eq_of_index declared same)⟩

/-- The first statement of a body, when it declares a variable. -/
def FunctionRun.firstAuto? (run : FunctionRun) : Option (CStr × Nat) :=
  match run.body with
  | .auto name size :: _ => some (name, size)
  | _ => none

theorem FunctionRun.declares_first {run : FunctionRun} {name : CStr} {size : Nat}
    (first : run.firstAuto? = some (name, size)) : run.Declares ⟨name, size, run.params⟩ := by
  unfold firstAuto? at first
  split at first
  next name size rest body =>
    cases first
    have opened : run.start.Reaches ⟨[⟨run.body, []⟩], run.scopeN.chain, 0,
        .phrase (.stmts run.body), run.start.ir⟩ := .tail .refl .block
    rw [body] at opened
    exact ⟨_, .tail opened .first, rfl, run.start_allocs⟩
  · cases first

/-- A function that stores to the second word of a vector. -/
def vectorRun : FunctionRun :=
  (FunctionRun.first? (sourceTokens
    "f() \x7b auto v[2]; v[1] = 5; \x7d".toList) "vector.b").get (by decide +kernel)

/-- Its nodes. The address of the second word is the sum that temporary 6 holds. -/
def vectorNodes : List IrNode :=
  [.label 1, .operation 1 .alloc 0 0, .operation 2 .const 0 0 5, .operation 3 .const 0 0 1,
    .operation 4 .const 0 0 8, .operation 5 .mul 3 4, .operation 6 .address 1 0,
    .operation 7 .add 5 6, .operation 0 .store 7 2, .operation 8 .const 0 0 0, .ret 8]

private theorem vectorRun_nodes : vectorNodes = vectorRun.nodes := by decide +kernel

private theorem vectorRun_declares : vectorRun.Declares ⟨some [byte 'v'], 2, 0⟩ := by
  have params : vectorRun.params = 0 := by decide +kernel
  rw [← params]
  exact FunctionRun.declares_first (by decide +kernel)

/-- A call of it with the stack pointer at 4096. -/
def vectorActivation : Activation Unit where
  entry := ⟨fun _ => 4096, none, fun _ => 0, ()⟩
  params := 0
  nodes := vectorNodes
  outer _ := False
  depth := 16
  room := by decide
  calls := by
    intro d name args member
    simp [vectorNodes] at member
  near := near_sixteen
  apart := nofun

/-- The store to the second word goes to the slot of temporary 8. -/
theorem vectors_not_stored : vectorActivation.nodes = vectorRun.nodes ∧
    ¬ ∀ vector, vectorRun.Declares vector → 1 ≤ vector.size →
      vectorActivation.Stores vectorRun.Declares vector := by
  refine ⟨vectorRun_nodes, fun stored => ?_⟩
  have stores := stored _ vectorRun_declares (by decide)
  have slot : vectorActivation.word ⟨some [byte 'v'], 2, 0⟩ 1 = vectorActivation.slot 8 := by
    decide +kernel
  have apart := stores.reserved 1 (by decide) _
    (vectorActivation.private_slot (show 8 ≤ vectorActivation.maxT by decide))
  rw [slot] at apart
  exact Activation.not_apart_self _ apart

theorem vectors_stored_two :
    (∀ vector, vectorRun.Declares vector → 1 ≤ vector.size →
        vectorActivation.Stores vectorRun.Declares vector) ↔
      ∀ vector, vectorRun.Declares vector → vector.size ≤ 1 :=
  (vectorRun.vectors_stored vectorActivation (by decide +kernel) vectorRun_nodes).2

end Trident
