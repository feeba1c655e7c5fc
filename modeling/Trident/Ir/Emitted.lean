import Trident.Ir.Counters
import Trident.Foundation.Steps

/-! The nodes that the generator appends for any tree: operations that the
backend knows, and destinations that have a slot. -/

set_option autoImplicit false

namespace Trident

open Foundation

/-- A node that the backend translates, with a slot for what it writes. -/
def IrNode.Valid : IrNode → Prop
  | .operation d op a b imm name =>
      op ≠ .unset ∧ (IrNode.operation d op a b imm name).dest? ≠ some 0
  | .call d _ _ => d ≠ 0
  | _ => True

/-- Valid nodes are appended, and no temporary is given back. -/
structure Ir.Emits (ir ir' : Ir) : Prop where
  nodes : ∃ code, ir'.nodes = ir.nodes ++ code ∧ ∀ node ∈ code, node.Valid
  temps : ir.tempC ≤ ir'.tempC

instance : Std.Refl Ir.Emits :=
  ⟨fun _ => ⟨⟨[], (List.append_nil _).symm, nofun⟩, Nat.le_refl _⟩⟩

instance : IsTrans Ir Ir.Emits := by
  constructor
  rintro first second third ⟨⟨code, nodes, valid⟩, temps⟩ ⟨⟨code', nodes', valid'⟩, temps'⟩
  refine ⟨⟨code ++ code', ?_, List.forall_mem_append.mpr ⟨valid, valid'⟩⟩,
    Nat.le_trans temps temps'⟩
  rw [nodes', nodes, List.append_assoc]

theorem Ir.Emits.isPrefix {ir ir' : Ir} (emits : ir.Emits ir') : ir.nodes <+: ir'.nodes := by
  obtain ⟨code, nodes, _⟩ := emits.nodes
  exact ⟨code, nodes.symm⟩

namespace Emits

theorem same {ir ir' : Ir} (nodes : ir'.nodes = ir.nodes) (temps : ir'.tempC = ir.tempC) :
    ir.Emits ir' :=
  ⟨⟨[], by rw [nodes, List.append_nil], nofun⟩, Nat.le_of_eq temps.symm⟩

theorem append {ir : Ir} {code : List IrNode} {tempC : Nat} (temps : ir.tempC ≤ tempC)
    (valid : ∀ node ∈ code, node.Valid) : ir.Emits (ir.append code tempC) :=
  ⟨⟨code, rfl, valid⟩, temps⟩

end Emits

/-- Rules for properties of computations: where they hold of the single operations of
the generator, they hold of all its functions. -/
structure Ir.Rules (P : {α : Type} → IrM α → Prop) : Prop where
  pure : ∀ {α : Type} (value : α), P (pure value)
  bind : ∀ {α β : Type} {action : IrM α} {next : α → IrM β},
    P action → (∀ value, P (next value)) → P (action >>= next)
  discard : ∀ {α : Type} {action : IrM α}, P action → P (discard action)
  get : ∀ {α : Type} {next : Ir → IrM α}, (∀ ir, P (next ir)) → P (get >>= next)
  fault : ∀ {α : Type} (fault : Fault), P (throw (.fault fault) : IrM α)
  irFatal : ∀ {α : Type} (diag : Diag), P (irFatal diag : IrM α)
  addIrNode : ∀ {node : IrNode}, node.Valid → P (addIrNode node)
  fresh : ∀ node : Nat → IrNode, (∀ t, t ≠ 0 → (node t).Valid) →
    P (do let t ← newTemp; Trident.addIrNode (node t); return t)
  newLable : P newLable
  heap : ∀ step : Ir → HsHeap, P (modify fun ir => { ir with heap := step ir })
  irExtrnS : ∀ name : CStr, P (irExtrnS name)

namespace Ir.Rules

variable {P : {α : Type} → IrM α → Prop} (rules : Ir.Rules P)

include rules

theorem readHashSet (id : Nat) (name : CStr) : P (readHashSet id name) := by
  refine rules.get fun ir => ?_
  split
  · exact rules.fault _
  · exact rules.fault _
  · exact rules.pure _

theorem bodyParent (body : AstNode) : P (bodyParent body) := by
  unfold Trident.bodyParent
  split
  · exact rules.pure _
  · exact rules.fault _

theorem freeHashSet (id : Nat) : P (freeHashSet id) := by
  refine rules.get fun ir => ?_
  split
  · exact rules.fault _
  · exact rules.heap _

theorem setTempDest (id : Nat) (name : CStr) (info : VarInfo) (temp : Nat) :
    P (setTempDest id name info temp) := by
  refine rules.get fun ir => ?_
  split
  · exact rules.heap _
  · exact rules.fault _

theorem lookupSymbol (scope : List Nat) (name : CStr) :
    P (lookupSymbol scope name) := by
  induction scope with
  | nil => exact rules.pure _
  | cons id parent ih =>
      refine rules.bind (rules.readHashSet id name) fun found => ?_
      cases found with
      | none => exact ih
      | some info => exact rules.pure _

theorem lookupOrDie (scope : List Nat) (name : CStr) : P (lookupOrDie scope name) := by
  refine rules.bind (rules.lookupSymbol scope name) fun found => ?_
  cases found with
  | none => exact rules.irFatal _
  | some found => exact rules.pure _

theorem fresh_run {action : IrM Nat} (node : Nat → IrNode)
    (run : ∀ ir, action ir =
      .ok (ir.tempC + 1) (ir.append [node (ir.tempC + 1)] (ir.tempC + 1)))
    (valid : ∀ t, t ≠ 0 → (node t).Valid) : P action := by
  have same : action = (do let t ← newTemp; Trident.addIrNode (node t); return t) := funext run
  rw [same]
  exact rules.fresh node valid

theorem emitOp {op : IrOp} (a b : Nat) (known : op ≠ .unset) : P (emitOp op a b) := by
  refine rules.fresh_run (fun t => .operation t op a b) (fun _ => rfl) fun t positive => ⟨known, ?_⟩
  cases op <;> simp [IrNode.dest?, positive]

theorem emitConst {kind : IrOp} (value : Nat) (known : kind ≠ .unset) :
    P (emitConst kind value) := by
  refine rules.fresh_run (fun t => .operation t kind 0 0 value) (fun _ => rfl) fun t positive => ⟨known, ?_⟩
  cases kind <;> simp [IrNode.dest?, positive]

theorem emmitCall (name : CStr) (args : List Nat) : P (emmitCall name args) :=
  rules.fresh_run (fun t => .call t name args) (fun _ => rfl) fun _ positive => positive

theorem irLoadLvalue (lv : LValue) : P (irLoadLvalue lv) := by
  refine rules.fresh_run lv.loadNode (fun ir => irLoadLvalue_run ir lv) fun t positive => ?_
  have written : some t ≠ some 0 := fun same => positive (Option.some.inj same)
  cases lv <;> exact ⟨nofun, written⟩

theorem irAddrOfLvalue (lv : LValue) : P (irAddrOfLvalue lv) := by
  refine rules.fresh_run lv.addrNode (fun ir => irAddrOfLvalue_run ir lv) fun t positive => ?_
  have written : some t ≠ some 0 := fun same => positive (Option.some.inj same)
  cases lv <;> exact ⟨nofun, written⟩

theorem irStoreLvalue (value : Nat) (lv : LValue) : P (irStoreLvalue value lv) := by
  cases lv <;> exact rules.addIrNode ⟨nofun, nofun⟩

theorem irIdentifier (scope : List Nat) (name : CStr) :
    P (irIdentifier scope name) := by
  refine rules.bind (rules.lookupOrDie scope name) fun var => ?_
  split
  · split
    · exact rules.irFatal _
    · exact rules.emitOp _ _ nofun
  · split
    · exact rules.irLoadLvalue (.global name)
    · exact rules.irFatal _

theorem irIdentLvalue (scope : List Nat) (name : CStr) :
    P (irIdentLvalue scope name) := by
  refine rules.bind (rules.lookupOrDie scope name) fun var => ?_
  split
  · split
    · exact rules.irFatal _
    · exact rules.pure _
  · split
    · exact rules.pure _
    · exact rules.irFatal _

mutual

theorem irExprF (node : AstNode) (scope : List Nat) : P (irExprF node scope) := by
  match node with
  | .atom kind value n =>
      cases kind with
      | int | string => exact rules.emitConst n nofun
      | identifier => exact rules.irIdentifier scope value
      | _ => exact rules.irFatal _
  | .unary op operand =>
      cases op with
      | bitAnd => exact rules.bind (irLvalue operand scope) rules.irAddrOfLvalue
      | mul => exact rules.bind (irExprF operand scope) fun addr => rules.emitOp addr 0 nofun
      | sub => exact rules.bind (irExprF operand scope) fun v => rules.emitOp v 0 nofun
      | not =>
          exact rules.bind (irExprF operand scope) fun v => rules.bind (rules.emitConst 0 nofun) fun t =>
            rules.emitOp v t nofun
      | inc | dec =>
          exact rules.bind (irLvalue operand scope) fun lv => rules.bind (rules.irLoadLvalue lv) fun old =>
            rules.bind (rules.emitConst 1 nofun) fun one => rules.bind (rules.emitOp old one nofun) fun nv =>
            rules.bind (rules.irStoreLvalue nv lv) fun _ => rules.pure nv
      | _ => exact rules.irFatal _
  | .binary left op right =>
      rw [Trident.irExprF]
      split
      · exact rules.bind (irExprF right scope) fun val => rules.bind (irLvalue left scope) fun lv =>
          rules.bind (rules.irStoreLvalue val lv) fun _ => rules.pure val
      · split
        case isTrue => exact rules.irFatal _
        case isFalse known =>
          exact rules.bind (irExprF left scope) fun a => rules.bind (irExprF right scope) fun b =>
            rules.emitOp a b known
  | .functionCall name args => exact rules.bind (irArgs args scope) fun ts => rules.emmitCall name ts
  | .expr _ | .scope _ _ | .function _ _ _ _ _ | .extrn _ | .auto _ _ | .if_ _ _ _
  | .elseIf _ _ _ | .else_ _ _ | .while_ _ _ | .return_ _ | .lable _ | .goto _
  | .global _ _ => exact rules.irFatal _
  termination_by structural node

theorem irLvalue (node : AstNode) (scope : List Nat) : P (irLvalue node scope) := by
  match node with
  | .atom kind value n =>
      rw [Trident.irLvalue]
      split
      · exact rules.irIdentLvalue scope value
      · exact rules.irFatal _
  | .unary op operand =>
      rw [Trident.irLvalue]
      split
      · exact rules.bind (irExprF operand scope) fun _ => rules.pure _
      · exact rules.irFatal _
  | .binary _ _ _ | .functionCall _ _ | .expr _ | .scope _ _ | .function _ _ _ _ _
  | .extrn _ | .auto _ _ | .if_ _ _ _ | .elseIf _ _ _ | .else_ _ _ | .while_ _ _
  | .return_ _ | .lable _ | .goto _ | .global _ _ => exact rules.irFatal _
  termination_by structural node

theorem irArgs (nodes : List AstNode) (scope : List Nat) : P (irArgs nodes scope) := by
  match nodes with
  | [] => exact rules.pure _
  | arg :: args =>
      exact rules.bind (irExprF arg scope) fun _ => rules.bind (irArgs args scope) fun _ => rules.pure _
  termination_by structural nodes

end

theorem irAutoS (name : CStr) (scope : List Nat) : P (irAutoS name scope) := by
  refine rules.bind (rules.lookupSymbol scope name) fun found => ?_
  cases found with
  | none => exact rules.irFatal _
  | some found => exact rules.bind (rules.emitOp 0 0 nofun) fun t => rules.setTempDest _ _ _ _

theorem irNamedLable (name : CStr) : P (irNamedLable name) := by
  refine rules.get fun ir => rules.bind (rules.readHashSet _ name) fun found => ?_
  cases found with
  | none => exact rules.irFatal _
  | some info =>
      dsimp only
      split
      · exact rules.bind rules.newLable fun id => rules.bind (rules.setTempDest _ _ _ _) fun _ => rules.pure _
      · exact rules.pure _

theorem irReturnS (node : Option AstNode) (scope : List Nat) :
    P (irReturnS node scope) := by
  cases node with
  | none => exact rules.addIrNode trivial
  | some node => exact rules.bind (rules.irExprF node scope) fun _ => rules.addIrNode trivial

theorem irScopeWith {scopeN : AstScope} {body : IrM Unit} (steps : P body) :
    P (irScopeWith scopeN body) := rules.bind steps fun _ => rules.freeHashSet _

theorem irIfWith {condition : AstNode} {scope : List Nat} {endLabelId : Nat} {body chain : IrM Unit}
    (bodySteps : P body) (chainSteps : P chain) :
    P (irIfWith condition scope endLabelId body chain) :=
  rules.bind rules.newLable fun _ => rules.bind rules.newLable fun _ => rules.bind (rules.irExprF condition scope) fun _ =>
    rules.bind (rules.addIrNode trivial) fun _ => rules.bind (rules.addIrNode trivial) fun _ =>
    rules.bind bodySteps fun _ => rules.bind (rules.addIrNode trivial) fun _ =>
    rules.bind (rules.addIrNode trivial) fun _ => chainSteps

theorem irWhileWith {condition : AstNode} {scope : List Nat} {body : IrM Unit}
    (bodySteps : P body) : P (irWhileWith condition scope body) :=
  rules.bind rules.newLable fun _ => rules.bind rules.newLable fun _ => rules.bind rules.newLable fun _ =>
    rules.bind (rules.addIrNode trivial) fun _ => rules.bind (rules.irExprF condition scope) fun _ =>
    rules.bind (rules.addIrNode trivial) fun _ => rules.bind (rules.addIrNode trivial) fun _ =>
    rules.bind bodySteps fun _ => rules.bind (rules.addIrNode trivial) fun _ => rules.addIrNode trivial

mutual

theorem irScopeBody (nodes : List AstNode) (scope : List Nat) :
    P (irScopeBody nodes scope) := by
  match nodes with
  | [] => exact rules.pure _
  | node :: nodes => exact rules.bind (irStatements node scope) fun _ => irScopeBody nodes scope
  termination_by structural nodes

theorem irBody (node : AstNode) : P (irBody node) := by
  match node with
  | .scope scopeN body => exact rules.irScopeWith (irScopeBody body scopeN.chain)
  | .atom _ _ _ | .unary _ _ | .binary _ _ _ | .functionCall _ _ | .expr _
  | .function _ _ _ _ _ | .extrn _ | .auto _ _ | .if_ _ _ _ | .elseIf _ _ _ | .else_ _ _
  | .while_ _ _ | .return_ _ | .lable _ | .goto _ | .global _ _ => exact rules.pure _
  termination_by structural node

theorem irIfChainS (node : AstNode) (scope : List Nat) (endLabelId : Nat) :
    P (irIfChainS node scope endLabelId) := by
  match node with
  | .if_ _ body chain => exact rules.irIfWith (irBody body) (irChain chain scope endLabelId)
  | .elseIf _ body chain => exact rules.irIfWith (irBody body) (irChain chain scope endLabelId)
  | .else_ scopeN body => exact rules.irScopeWith (irScopeBody body scopeN.chain)
  | .atom _ _ _ | .unary _ _ | .binary _ _ _ | .functionCall _ _ | .expr _ | .scope _ _
  | .function _ _ _ _ _ | .extrn _ | .auto _ _ | .while_ _ _ | .return_ _ | .lable _
  | .goto _ | .global _ _ => exact rules.pure _
  termination_by structural node

theorem irChain (chain : Option AstNode) (scope : List Nat) (endLabelId : Nat) :
    P (irChain chain scope endLabelId) := by
  match chain with
  | none => exact rules.pure _
  | some node => exact irIfChainS node scope endLabelId
  termination_by structural chain

theorem irStatements (node : AstNode) (scope : List Nat) :
    P (irStatements node scope) := by
  match node with
  | .return_ node => exact rules.irReturnS node scope
  | .scope scopeN body => exact rules.irScopeWith (irScopeBody body scopeN.chain)
  | .auto name _ => exact rules.irAutoS name scope
  | .extrn name => exact rules.irExtrnS name
  | .expr node => exact rules.discard (rules.irExprF node scope)
  | .if_ _ body chain =>
      exact rules.bind (rules.bodyParent body) fun _ => rules.bind rules.newLable fun _ =>
        rules.bind (rules.irIfWith (irBody body) (irChain chain _ _)) fun _ => rules.addIrNode trivial
  | .while_ _ body => exact rules.bind (rules.bodyParent body) fun _ => rules.irWhileWith (irBody body)
  | .lable name => exact rules.bind (rules.irNamedLable name) fun _ => rules.addIrNode trivial
  | .goto name => exact rules.bind (rules.irNamedLable name) fun _ => rules.addIrNode trivial
  | .atom _ _ _ | .unary _ _ | .binary _ _ _ | .functionCall _ _ | .function _ _ _ _ _
  | .elseIf _ _ _ | .else_ _ _ | .global _ _ => exact rules.irFatal _
  termination_by structural node

end

theorem irScope (body : AstNode) : P (irScope body) := by
  cases body with
  | scope | else_ => exact rules.irScopeWith (rules.irScopeBody _ _)
  | _ => exact rules.fault _

theorem irParams (params : Nat) {i : Nat} (positive : i ≠ 0) :
    P (irParams params i) := by
  induction params generalizing i with
  | zero => exact rules.pure _
  | succ params ih =>
      exact rules.bind (rules.emitOp 0 0 nofun) fun slot =>
        rules.bind (rules.addIrNode ⟨nofun, nofun⟩) fun _ =>
        rules.bind (rules.addIrNode ⟨nofun, fun same => positive (Option.some.inj same)⟩) fun _ =>
        ih (Nat.succ_ne_zero i)

end Ir.Rules

/-- A relation that holds over everything the generator does to its context. -/
structure Ir.Closed (R : Ir → Ir → Prop) : Prop where
  append : ∀ {ir : Ir} {code : List IrNode} {tempC : Nat}, ir.tempC ≤ tempC →
    (∀ node ∈ code, node.Valid) → R ir (ir.append code tempC)
  lableC : ∀ ir lableC, R ir { ir with lableC }
  heap : ∀ ir heap, R ir { ir with heap }
  stderr : ∀ ir stderr, R ir { ir with stderr }
  extrn : ∀ ir name, R ir { ir with irTail := ir.irTail ++ [.extrn name] }

namespace Ir.Closed

variable {R : Ir → Ir → Prop} [Std.Refl R] [IsTrans Ir R] (closed : Ir.Closed R)

include closed

theorem rules : Ir.Rules (Steps R) where
  pure := .pure
  bind := .bind
  discard := .discard
  get second := .bind .get second
  fault _ := .throw _
  irFatal _ := .bind (.modify fun ir => closed.stderr ir _) fun _ => .throw _
  addIrNode valid :=
    .modify fun _ => closed.append (Nat.le_refl _) (List.forall_mem_singleton.mpr valid)
  fresh _ valid := fun _ =>
    closed.append (Nat.le_succ _) (List.forall_mem_singleton.mpr (valid _ (Nat.succ_ne_zero _)))
  newLable := .modifyGet fun ir => closed.lableC ir _
  heap _ := .modify fun ir => closed.heap ir _
  irExtrnS name := .modify fun ir => closed.extrn ir name

/-- What `ir_function_s` does once the body was visited. -/
theorem functionEnd {name : CStr} {paramsTab lableTab params : Nat} {ir final : Ir} {top : IrTop}
    (accepted : (do
        unless (← get).nodes.getLast?.any (·.isRet) do
          let zeroTemp ← Trident.emitConst .const 0
          Trident.addIrNode (.ret zeroTemp)
        Trident.freeHashSet paramsTab
        Trident.freeHashSet lableTab
        return IrTop.function name params (← get).nodes : IrM IrTop) ir = .ok top final) :
    R ir final ∧ top = .function name params final.nodes := by
  have freeing : ∀ {closing : Ir}, (do
      Trident.freeHashSet paramsTab
      Trident.freeHashSet lableTab
      return IrTop.function name params (← get).nodes : IrM IrTop) closing = .ok top final →
      R closing final ∧ top = .function name params final.nodes := by
    intro closing accepted
    obtain ⟨_, _, freed, accepted⟩ := bind_eq_ok.mp accepted
    obtain ⟨_, _, freed', accepted⟩ := bind_eq_ok.mp accepted
    cases accepted
    have first := (closed.rules.freeHashSet _).of_ok freed
    have second := (closed.rules.freeHashSet _).of_ok freed'
    exact ⟨IsTrans.trans _ _ _ first second, rfl⟩
  rw [bind_run_of_ok (get_run _)] at accepted
  split at accepted
  · exact freeing accepted
  · obtain ⟨_, _, const, accepted⟩ := bind_eq_ok.mp accepted
    obtain ⟨_, _, ret, accepted⟩ := bind_eq_ok.mp accepted
    obtain ⟨freed, made⟩ := freeing accepted
    have constant : Steps R (Trident.emitConst .const 0) := closed.rules.emitConst 0 nofun
    have returned : ∀ t, Steps R (Trident.addIrNode (.ret t)) := fun _ => closed.rules.addIrNode trivial
    have toReturn := IsTrans.trans _ _ _ (constant.of_ok const) ((returned _).of_ok ret)
    exact ⟨IsTrans.trans _ _ _ toReturn freed, made⟩

/-- What `ir_function_s` does after the context was reset, and what it returns. -/
theorem irFunctionS {name : CStr} {paramsTab lableTab params : Nat} {body : AstNode} {ir final : Ir}
    {top : IrTop}
    (accepted : irFunctionS (.function name paramsTab lableTab params body) ir = .ok top final) :
    R { ir with tLableTab := lableTab, tempC := params, lableC := 0, nodes := [] } final ∧
      top = .function name params final.nodes := by
  rw [Trident.irFunctionS, bind_run_of_ok (modify_run _ _)] at accepted
  obtain ⟨entryLabel, _, entry, accepted⟩ := bind_eq_ok.mp accepted
  obtain ⟨_, _, label, accepted⟩ := bind_eq_ok.mp accepted
  obtain ⟨_, _, slots, accepted⟩ := bind_eq_ok.mp accepted
  obtain ⟨_, atEnd, visited, accepted⟩ := bind_eq_ok.mp accepted
  obtain ⟨ended, made⟩ := closed.functionEnd accepted
  have start : Steps R (Trident.addIrNode (.label entryLabel)) := closed.rules.addIrNode trivial
  have toBody := IsTrans.trans _ _ _ (closed.rules.newLable.of_ok entry) (start.of_ok label)
  have toSlots := IsTrans.trans _ _ _ toBody ((closed.rules.irParams _ Nat.one_ne_zero).of_ok slots)
  have toEnd := IsTrans.trans _ _ _ toSlots ((closed.rules.irScope _).of_ok visited)
  exact ⟨IsTrans.trans _ _ _ toEnd ended, made⟩

end Ir.Closed

theorem Emits.closed : Ir.Closed Ir.Emits where
  append := Emits.append
  lableC _ _ := Emits.same rfl rfl
  heap _ _ := Emits.same rfl rfl
  stderr _ _ := Emits.same rfl rfl
  extrn _ _ := Emits.same rfl rfl

/-- A function that the generator makes, of whatever tree, has valid nodes. -/
theorem irFunctionS_valid {node : AstNode} {ir final : Ir} {name : CStr} {params : Nat}
    {nodes : List IrNode}
    (accepted : irFunctionS node ir = .ok (.function name params nodes) final) :
    ∀ node ∈ nodes, node.Valid := by
  cases node with
  | function name' paramsTab lableTab params' body =>
      obtain ⟨emits, made⟩ := Emits.closed.irFunctionS accepted
      obtain ⟨code, same, valid⟩ := emits.nodes
      cases made
      rw [same]
      exact valid
  | _ => cases accepted

end Trident
