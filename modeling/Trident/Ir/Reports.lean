import Trident.Foundation.Guarded
import Trident.Ir.Emitted

/-! The generator prints a diagnostic when it exits, and at no other time. -/

set_option autoImplicit false

namespace Trident

open Foundation

/-- How the generator may stop, given the diagnostics before. -/
structure Refused (before : List Diag) (stop : Stop) (after : List Diag) : Prop where
  fuel : stop ≠ .fuel
  exit : stop = .exit → ∃ diag, after = before ++ [diag]
  silent : stop ≠ .exit → after = before

/-- The computation reports exactly when it exits. -/
def Reports {α : Type} (action : IrM α) : Prop :=
  ∀ ir, RunEnds (fun _ ir' => ir'.stderr = ir.stderr)
    (fun stop ir' => Refused ir.stderr stop ir'.stderr) action ir

namespace Reports

variable {α β : Type}

theorem pure (value : α) : Reports (pure value) := fun _ => rfl

theorem bind {action : IrM α} {next : α → IrM β} (first : Reports action)
    (second : ∀ value, Reports (next value)) : Reports (action >>= next) := by
  intro ir
  refine RunEnds.bind (first ir) fun value ir' same => ?_
  rw [← same]
  exact second value ir'

theorem get {next : Ir → IrM α} (second : ∀ ir, Reports (next ir)) :
    Reports (MonadState.get >>= next) := fun ir => second ir ir

theorem modify {step : Ir → Ir} (same : ∀ ir, (step ir).stderr = ir.stderr) :
    Reports (modify step) := same

theorem discard {action : IrM α} (reports : Reports action) : Reports (discard action) :=
  fun ir => RunEnds.discard (reports ir)

theorem irFatal (diag : Diag) : Reports (irFatal diag : IrM α) :=
  fun _ => ⟨nofun, fun _ => ⟨diag, rfl⟩, fun other => absurd rfl other⟩

theorem fault (fault : Fault) : Reports (throw (.fault fault) : IrM α) :=
  fun _ => ⟨nofun, nofun, fun _ => rfl⟩

theorem rules : Ir.Rules Reports where
  pure := pure
  bind := bind
  discard := discard
  get := get
  fault := fault
  irFatal := irFatal
  addIrNode _ := fun _ => rfl
  fresh _ _ := fun _ => rfl
  newLable := fun _ => rfl
  heap _ := fun _ => rfl
  irExtrnS _ := fun _ => rfl

theorem addIrTop (node : IrTop) : Reports (addIrTop node) := fun _ => rfl

theorem irFunctionS (node : AstNode) : Reports (irFunctionS node) := by
  cases node with
  | function name paramsTab lableTab params body =>
      refine bind (modify fun _ => rfl) fun _ => bind rules.newLable fun _ =>
        bind (rules.addIrNode trivial) fun _ => bind (rules.irParams _ Nat.one_ne_zero) fun _ =>
        bind (rules.irScope _) fun _ => get fun ir => ?_
      have finish : Reports (do
          freeHashSet paramsTab
          freeHashSet lableTab
          return .function name params (← MonadState.get).nodes : IrM IrTop) :=
        bind (rules.freeHashSet _) fun _ => bind (rules.freeHashSet _) fun _ => get fun _ => pure _
      split
      · exact finish
      · exact bind (rules.emitConst 0 (by decide)) fun _ => bind (rules.addIrNode trivial) fun _ => finish
  | _ => exact fault _

theorem genIrLoop (ast : List AstNode) : Reports (genIrLoop ast) := by
  induction ast with
  | nil => exact pure _
  | cons node rest ih =>
      cases node with
      | function name paramsTab lableTab params body =>
          exact bind (irFunctionS _) fun _ => bind (addIrTop _) fun _ => ih
      | global name size => exact bind (addIrTop _) fun _ => ih
      | extrn name => exact bind (addIrTop _) fun _ => ih
      | _ => exact ih

end Reports

end Trident
