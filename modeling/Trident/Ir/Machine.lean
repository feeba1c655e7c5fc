import Trident.Ir.Node
import Trident.Semantics
import Trident.Foundation.Runs

/-! The machine that the IR is written for. It has a temporary for each number,
which holds a word once it was written, and runs the list of nodes of one
function. Each `OP_ALLOC` of the list has a word of its own in the frame, at
`cell k` for the one that has `k` others before it. -/

set_option autoImplicit false

namespace Trident

open Foundation

variable {σ : Type}

abbrev Temps := Nat → Option Word

structure IrState (σ : Type) where
  temps : Temps
  store : Store σ

abbrev IrStateM (σ : Type) := EStateM Halt (IrState σ)

def readTemp (t : Nat) : IrStateM σ Word := do
  match (← get).temps t with
  | some value => return value
  | none => throw .undefined

def readTemps : List Nat → IrStateM σ (List Word)
  | [] => return []
  | t :: ts => return (← readTemp t) :: (← readTemps ts)

def writeTemp (t : Nat) (value : Word) : IrStateM σ Unit :=
  modify fun state => { state with temps := Function.update state.temps t (some value) }

/-- An access to the store. -/
def onStore {α : Type} (access : StoreM σ α) : IrStateM σ α := fun state =>
  match access state.store with
  | .ok value store => .ok value { state with store }
  | .error halt store => .error halt { state with store }

/-- The value of an operation on two temporaries. -/
def IrOp.value (op : IrOp) (a b : Word) : StoreM σ Word :=
  match op with
  | .add => compute (a + b)
  | .sub => compute (a - b)
  | .mul => compute (a * b)
  | .div => if divisionTraps a b then throw .trap else compute (a.sdiv b)
  | .mod => if divisionTraps a b then throw .trap else compute (a.srem b)
  | .and => compute (a &&& b)
  | .or => compute (a ||| b)
  | .shl => compute (a <<< shiftCount b)
  | .shr => compute (a.sshiftRight (shiftCount b))
  | .eq => compute (truth (a == b))
  | .ne => compute (truth (a != b))
  | .gt => compute (truth (b.slt a))
  | .ge => compute (truth (b.sle a))
  | .lt => compute (truth (a.slt b))
  | .le => compute (truth (a.sle b))
  | _ => throw .undefined

/-- An operation node; `cell` is the word of the frame that belongs to it. -/
def execOp (w : World σ) (cell : Word) (d : Nat) (op : IrOp) (a b imm : Nat) (name : CStr) :
    IrStateM σ Unit :=
  match op with
  | .const => do writeTemp d (← onStore (compute (BitVec.ofNat 64 imm)))
  | .data => do writeTemp d (← onStore (compute (w.roData imm)))
  | .alloc => writeTemp d cell
  | .address => do
      let addr ← readTemp a
      writeTemp d (← onStore (compute addr))
  | .load => do
      let addr ← readTemp a
      writeTemp d (← onStore (loadWord addr))
  | .store => do
      let addr ← readTemp a
      let value ← readTemp b
      onStore (storeWord addr value)
  | .globalL => do writeTemp d (← onStore (loadWord (w.global name)))
  | .globalS => do
      let value ← readTemp b
      onStore (storeWord (w.global name) value)
  | .globalAddr => do writeTemp d (← onStore (compute (w.global name)))
  | .neg => do
      let value ← readTemp a
      writeTemp d (← onStore (compute (-value)))
  | op => do
      let left ← readTemp a
      let right ← readTemp b
      writeTemp d (← onStore (op.value left right))

/-- A node that passes control on to the next one. -/
def IrNode.exec (w : World σ) (cell : Word) : IrNode → IrStateM σ Unit
  | .operation d op a b imm name => execOp w cell d op a b imm name
  | .call d name args => do
      let values ← readTemps args
      writeTemp d (← onStore (callOut w name values))
  | _ => return

def execNodes (w : World σ) (cell : Word) : List IrNode → IrStateM σ Unit
  | [] => return
  | node :: nodes => do
      node.exec w cell
      execNodes w cell nodes

/-- The nodes from the label `id` on. -/
def labelTarget (id : Nat) (nodes : List IrNode) : List IrNode :=
  nodes.dropWhile (· ≠ .label id)

/-- One step of a function with the nodes `nodes`, of which the list given are
those still ahead. -/
def irStep (w : World σ) (cell : Nat → Word) (nodes : List IrNode) :
    List IrNode → IrStateM σ (Next (List IrNode) Word)
  | [] => throw .undefined
  | .label _ :: rest => return .more rest
  | .jump id :: _ => return .more (labelTarget id nodes)
  | .branch id idF t :: _ => do
      let value ← readTemp t
      let holds ← onStore (testWord value)
      return .more (labelTarget (if holds then id else idF) nodes)
  | .ret t :: _ => if t = 0 then return .done 0 else return .done (← readTemp t)
  | node :: rest => do
      node.exec w (cell ((nodes.countP (·.isAlloc)) - ((node :: rest).countP (·.isAlloc))))
      return .more rest

/-- The temporaries at the entry of a function: the arguments, from one on. -/
def argTemps (args : List Word) : Temps := fun t => if t = 0 then none else args[t - 1]?

/-- A call of a function, cut short after `limit` nodes. -/
def irCall (w : World σ) (cell : Nat → Word) (nodes : List IrNode) (limit : Nat)
    (args : List Word) : StoreM σ (Option Word) := fun store =>
  match runSteps (irStep w cell nodes) limit nodes ⟨argTemps args, store⟩ with
  | .ok result state => .ok result state.store
  | .error halt state => .error halt state.store

section

variable {ir : IrState σ} {t : Nat} {value : Word}

theorem readTemp_some (found : ir.temps t = some value) : readTemp t ir = .ok value ir := by
  rw [readTemp, bind_run_of_ok (get_run _), found]
  rfl

theorem readTemp_none (found : ir.temps t = none) : readTemp t ir = .error .undefined ir := by
  rw [readTemp, bind_run_of_ok (get_run _), found]
  rfl

end

end Trident
