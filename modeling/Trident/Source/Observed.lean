import Trident.Foundation.Simulation
import Trident.Source.Eval

/-! What can be observed of a run: its result, the memory, the outside world, and the
loads, stores and calls in their order. The words it computes on the way cannot. -/

set_option autoImplicit false

namespace Trident

open Foundation

variable {σ : Type}

def Event.observed : Event → Bool
  | .value _ => false
  | _ => true

/-- Two stores that cannot be told apart. -/
structure Store.Alike (s t : Store σ) : Prop where
  mem : s.mem = t.mem
  outside : s.outside = t.outside
  trace : s.trace.filter Event.observed = t.trace.filter Event.observed

namespace Store.Alike

variable {s t r : Store σ}

theorem refl (s : Store σ) : s.Alike s := ⟨rfl, rfl, rfl⟩

theorem symm (alike : s.Alike t) : t.Alike s :=
  ⟨alike.mem.symm, alike.outside.symm, alike.trace.symm⟩

theorem trans (first : s.Alike t) (second : t.Alike r) : s.Alike r :=
  ⟨first.mem.trans second.mem, first.outside.trans second.outside, first.trace.trans second.trace⟩

theorem log (alike : s.Alike t) (event : Event) : (s.log event).Alike (t.log event) :=
  ⟨alike.mem, alike.outside, by simp [Store.log, alike.trace]⟩

theorem value (alike : s.Alike t) (value : Word) : s.Alike (t.log (.value value)) :=
  ⟨alike.mem, alike.outside, by simp [Store.log, Event.observed, alike.trace]⟩

end Store.Alike

/-- From like stores the computations end alike, with values that are related. -/
abbrev AgreeOn {α β : Type} (related : α → β → Prop) (first : StoreM σ α) (second : StoreM σ β) : Prop :=
  Simulates (fun _ => False) Store.Alike Store.Alike first second
    fun a b s t => related a b ∧ s.Alike t

abbrev Agree {α : Type} (first second : StoreM σ α) : Prop := AgreeOn Eq first second

section Rules

variable {α β γ δ : Type} {related : α → β → Prop} {last : γ → δ → Prop}
  {first : StoreM σ α} {second : StoreM σ β} {next : α → StoreM σ γ} {next' : β → StoreM σ δ}

theorem AgreeOn.bind (agrees : AgreeOn related first second)
    (later : ∀ a b, related a b → AgreeOn last (next a) (next' b)) :
    AgreeOn last (first >>= next) (second >>= next') :=
  Simulates.bind agrees fun a b s t ⟨held, alike⟩ => later a b held s t alike

theorem AgreeOn.pure {a : α} {b : β} (held : related a b) :
    AgreeOn related (pure a : StoreM σ α) (pure b) :=
  Simulates.pure fun _ _ alike => ⟨held, alike⟩

/-- Only the second of the computations makes this step. -/
theorem AgreeOn.compute {value : Word} {next' : Word → StoreM σ β}
    (agrees : AgreeOn related first (next' value)) :
    AgreeOn related first (compute value >>= next') := by
  intro s t alike
  exact agrees s (t.log (.value value)) (alike.value value)

theorem AgreeOn.compute_last {value : Word} {a : α} {related : α → Word → Prop}
    (held : related a value) : AgreeOn related (Pure.pure a : StoreM σ α) (Trident.compute value) := by
  intro s t alike
  exact ⟨value, t.log (.value value), rfl, held, alike.value value⟩

theorem Agree.bind {next next' : α → StoreM σ γ} {first second : StoreM σ α}
    (agrees : Agree first second) (later : ∀ a, Agree (next a) (next' a)) :
    Agree (first >>= next) (second >>= next') :=
  AgreeOn.bind agrees fun a _ same => same ▸ later a

theorem Agree.throw (halt : Halt) : Agree (throw halt : StoreM σ α) (throw halt) :=
  Simulates.throw fun _ _ alike => alike

theorem Agree.pure (a : α) : Agree (Pure.pure a : StoreM σ α) (Pure.pure a) := AgreeOn.pure rfl

theorem Agree.compute (value : Word) : Agree (Trident.compute value : StoreM σ Word) (Trident.compute value) :=
  fun _ _ alike => ⟨_, _, rfl, rfl, alike.log _⟩

theorem Agree.loadWord (addr : Word) :
    Agree (Trident.loadWord addr : StoreM σ Word) (Trident.loadWord addr) := by
  intro s t alike
  refine ⟨s.mem.load addr, t.log (.load addr (s.mem.load addr)), ?_, rfl, alike.log _⟩
  rw [alike.mem]
  rfl

theorem Agree.storeWord (addr value : Word) :
    Agree (Trident.storeWord addr value : StoreM σ Unit) (Trident.storeWord addr value) := by
  intro s t alike
  have logged := alike.log (.store addr value)
  exact ⟨(), _, rfl, rfl, ⟨by simp [alike.mem], logged.outside, logged.trace⟩⟩

theorem Agree.callOut (w : World σ) (name : CStr) (args : List Word) :
    Agree (Trident.callOut w name args) (Trident.callOut w name args) := by
  intro s t alike
  have logged := alike.log (.call name args)
  rw [Trident.callOut, bind_run_of_ok (modify_run _ _), bind_run_of_ok (get_run _),
    bind_run_of_ok (modify_run _ _), bind_run_of_ok (get_run _), ← logged.mem, ← logged.outside]
  cases w.callee name args (s.log (.call name args)).mem (s.log (.call name args)).outside with
  | none => exact .inr ⟨_, rfl, logged⟩
  | some result => exact ⟨_, _, rfl, rfl, rfl, rfl, logged.trace⟩

theorem Agree.binaryValue (op : TokenKind) (left right : Word) :
    Agree (Trident.binaryValue op left right : StoreM σ Word) (Trident.binaryValue op left right) := by
  cases op
  case dev | mod =>
    simp only [Trident.binaryValue]
    split
    · exact .throw _
    · exact .compute _
  all_goals first | exact .compute _ | exact .throw _

theorem Agree.stepWord (op : TokenKind) (addr : Word) :
    Agree (Trident.stepWord op addr : StoreM σ Word) (Trident.stepWord op addr) :=
  .bind (.loadWord addr) fun _ => .bind (.compute 1) fun _ => .bind (.binaryValue op _ _) fun _ =>
    .bind (.storeWord addr _) fun _ => .pure _

end Rules

variable (w : World σ) (env : Env)

mutual

/-- An evaluation does not depend on what cannot be observed. -/
theorem evalExpr_agrees (node : AstNode) : Agree (evalExpr w env node) (evalExpr w env node) := by
  match node with
  | .atom kind value n =>
      cases kind
      case int | string => exact .compute _
      case identifier => exact .loadWord _
      all_goals exact .throw _
  | .unary op operand =>
      cases op
      case bitAnd => exact .bind (evalLvalue_agrees operand) fun _ => .compute _
      case mul => exact .bind (evalExpr_agrees operand) fun _ => .loadWord _
      case sub => exact .bind (evalExpr_agrees operand) fun _ => .compute _
      case not =>
        exact .bind (evalExpr_agrees operand) fun _ => .bind (.compute 0) fun _ => .compute _
      case inc | dec => exact .bind (evalLvalue_agrees operand) fun _ => .stepWord _ _
      all_goals exact .throw _
  | .binary left op right =>
      by_cases assign : op = .assign
      · subst assign
        rw [evalExpr_assign]
        exact .bind (evalExpr_agrees right) fun _ => .bind (evalLvalue_agrees left) fun _ =>
          .bind (.storeWord _ _) fun _ => .pure _
      · rw [evalExpr_binary w env left right assign]
        exact .bind (evalExpr_agrees left) fun _ => .bind (evalExpr_agrees right) fun _ =>
          .binaryValue op _ _
  | .functionCall name args => exact .bind (evalArgs_agrees args) fun _ => .callOut w name _
  | .expr _ | .scope _ _ | .function _ _ _ _ _ | .extrn _ | .auto _ _ | .if_ _ _ _
  | .elseIf _ _ _ | .else_ _ _ | .while_ _ _ | .return_ _ | .lable _ | .goto _
  | .global _ _ => exact .throw _
  termination_by structural node

private theorem evalLvalue_agrees (node : AstNode) :
    Agree (evalLvalue w env node) (evalLvalue w env node) := by
  match node with
  | .atom kind value n =>
      cases kind
      case identifier => exact .pure _
      all_goals exact .throw _
  | .unary op operand =>
      cases op
      case mul => exact evalExpr_agrees operand
      all_goals exact .throw _
  | .binary _ _ _ | .functionCall _ _ | .expr _ | .scope _ _ | .function _ _ _ _ _
  | .extrn _ | .auto _ _ | .if_ _ _ _ | .elseIf _ _ _ | .else_ _ _ | .while_ _ _
  | .return_ _ | .lable _ | .goto _ | .global _ _ => exact .throw _
  termination_by structural node

private theorem evalArgs_agrees (nodes : List AstNode) :
    Agree (evalArgs w env nodes) (evalArgs w env nodes) := by
  match nodes with
  | [] => exact .pure _
  | node :: nodes =>
      exact .bind (evalExpr_agrees node) fun _ => .bind (evalArgs_agrees nodes) fun _ => .pure _
  termination_by structural nodes

end

end Trident
