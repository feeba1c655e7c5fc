import Trident.Ir.Machine
import Trident.Foundation.Steps

/-! The trace of a run only grows, so that what holds of the accesses of a run
holds of those made so far. -/

set_option autoImplicit false

namespace Trident

open Foundation

variable {σ : Type}

def Store.Grows (store store' : Store σ) : Prop := store.trace <+: store'.trace

def IrState.Grows (ir ir' : IrState σ) : Prop := ir.store.Grows ir'.store

instance : Std.Refl (Store.Grows (σ := σ)) := ⟨fun _ => List.prefix_rfl⟩

instance : IsTrans (Store σ) Store.Grows := ⟨fun _ _ _ => List.IsPrefix.trans⟩

instance : Std.Refl (IrState.Grows (σ := σ)) := ⟨fun _ => List.prefix_rfl⟩

instance : IsTrans (IrState σ) IrState.Grows := ⟨fun _ _ _ => List.IsPrefix.trans⟩

namespace Grows

theorem log (store : Store σ) (event : Event) : store.Grows (store.log event) :=
  List.prefix_append _ _

theorem compute (value : Word) : Steps Store.Grows (compute value : StoreM σ Word) :=
  .bind (.modify fun store => log store _) fun _ => .pure _

theorem loadWord (addr : Word) : Steps Store.Grows (loadWord addr : StoreM σ Word) :=
  .bind .get fun _ => .bind (.modify fun store => log store _) fun _ => .pure _

theorem storeWord (addr value : Word) : Steps Store.Grows (storeWord addr value : StoreM σ Unit) :=
  .modify fun store => log store _

theorem testWord (value : Word) : Steps Store.Grows (testWord value : StoreM σ Bool) :=
  .bind (.modify fun store => log store _) fun _ => .pure _

theorem callOut (w : World σ) (name : CStr) (args : List Word) :
    Steps Store.Grows (callOut w name args) := by
  intro store
  refine IsTrans.trans _ _ _ (log store (.call name args)) ?_
  rw [Trident.callOut, bind_run_of_ok (modify_run _ _), bind_run_of_ok (get_run _)]
  cases w.callee name args (store.log (.call name args)).mem
      (store.log (.call name args)).outside <;> exact List.prefix_rfl

theorem value (op : IrOp) (a b : Word) : Steps Store.Grows (op.value a b : StoreM σ Word) := by
  cases op with
  | div | mod =>
      rw [IrOp.value]
      split
      · exact .throw _
      · exact compute _
  | add | sub | mul | and | or | shl | shr | eq | ne | gt | ge | lt | le => exact compute _
  | _ => exact .throw _

theorem onStore {α : Type} {access : StoreM σ α} (steps : Steps Store.Grows access) :
    Steps IrState.Grows (onStore access) := by
  intro ir
  have step := steps ir.store
  rw [Trident.onStore]
  cases result : access ir.store <;> rw [result] at step <;> exact step

theorem readTemp (t : Nat) : Steps IrState.Grows (readTemp t : IrStateM σ Word) := by
  refine .bind .get fun ir => ?_
  split
  · exact .pure _
  · exact .throw _

theorem readTemps (ts : List Nat) : Steps IrState.Grows (readTemps ts : IrStateM σ (List Word)) := by
  induction ts with
  | nil => exact .pure _
  | cons t ts ih => exact .bind (readTemp t) fun _ => .bind ih fun _ => .pure _

theorem writeTemp (t : Nat) (value : Word) :
    Steps IrState.Grows (writeTemp t value : IrStateM σ Unit) := .modify fun _ => List.prefix_rfl

theorem execOp (w : World σ) (cell : Word) (d : Nat) (op : IrOp) (a b imm : Nat) (name : CStr) :
    Steps IrState.Grows (execOp w cell d op a b imm name) := by
  cases op with
  | const | data | globalAddr => exact .bind (onStore (compute _)) fun _ => writeTemp _ _
  | alloc => exact writeTemp _ _
  | globalL => exact .bind (onStore (loadWord _)) fun _ => writeTemp _ _
  | address | neg =>
      exact .bind (readTemp a) fun _ => .bind (onStore (compute _)) fun _ => writeTemp _ _
  | load => exact .bind (readTemp a) fun _ => .bind (onStore (loadWord _)) fun _ => writeTemp _ _
  | store =>
      exact .bind (readTemp a) fun _ => .bind (readTemp b) fun _ => onStore (storeWord _ _)
  | globalS => exact .bind (readTemp b) fun _ => onStore (storeWord _ _)
  | _ =>
      exact .bind (readTemp a) fun _ => .bind (readTemp b) fun _ =>
        .bind (onStore (value _ _ _)) fun _ => writeTemp _ _

theorem exec (w : World σ) (cell : Word) (node : IrNode) :
    Steps IrState.Grows (node.exec w cell) := by
  cases node with
  | operation d op a b imm name => exact execOp w cell d op a b imm name
  | call d name args =>
      exact .bind (readTemps args) fun _ => .bind (onStore (callOut w name _)) fun _ =>
        writeTemp _ _
  | label | jump | branch | ret => exact .pure _

theorem irStep (w : World σ) (cell : Nat → Word) (nodes ahead : List IrNode) :
    Steps IrState.Grows (irStep w cell nodes ahead) := by
  cases ahead with
  | nil => exact .throw _
  | cons node rest =>
      cases node with
      | label | jump => exact .pure _
      | branch id idF t =>
          exact .bind (readTemp t) fun _ => .bind (onStore (testWord _)) fun _ => .pure _
      | ret t =>
          rw [Trident.irStep]
          split
          · exact .pure _
          · exact .bind (readTemp t) fun _ => .pure _
      | operation | call => exact .bind (exec w _ _) fun _ => .pure _

end Grows

end Trident
