import Trident.Ir.Operators
import Trident.Ir.Uses
import Trident.Parser.Reading

/-! Which of the programs that the parser builds the generator accepts: those in which
every name resolves. -/

set_option autoImplicit false

namespace Trident

open Foundation

/-! Scoping by the tree, without the symbol tables. -/

/-- From inside the blocks of `frames` a variable is found that has storage. A name that
an open block declares further down hides those around the block. -/
def Visible (outer : CStr → Prop) : List Frame → CStr → Prop
  | [], name => outer name
  | frame :: frames, name =>
      if Names (autoNames frame.body) name then Names (autoNames frame.before) name
      else Visible outer frames name

/-- An expression whose operators and places the generator knows, and whose names resolve. -/
structure AstNode.Lowerable (resolves : CStr → Prop) (node : AstNode) : Prop where
  expression : node.Expression
  fit : node.Fit resolves
  noUnaryPlus : node.NoUnaryPlus

/-- What may stand inside the blocks of `frames`, in a function with these labels. -/
inductive WellScoped (outer labels : CStr → Prop) : List Frame → ScopePhrase → Prop where
  | return_ {frames node} : node.Lowerable (Visible outer frames) →
      WellScoped outer labels frames (.stmt (.return_ (some node)))
  | expr {frames node} : node.Lowerable (Visible outer frames) →
      WellScoped outer labels frames (.stmt (.expr node))
  | goto {frames name} : labels name → WellScoped outer labels frames (.stmt (.goto name))
  | lable {frames name} : WellScoped outer labels frames (.stmt (.lable name))
  | extrn {frames name} : WellScoped outer labels frames (.stmt (.extrn name))
  | auto {frames name size} : WellScoped outer labels frames (.stmt (.auto name size))
  | scope {frames scopeN body} : WellScoped outer labels frames (.block scopeN body) →
      WellScoped outer labels frames (.stmt (.scope scopeN body))
  | if_ {frames condition scopeN body chain} : condition.Lowerable (Visible outer frames) →
      WellScoped outer labels frames (.block scopeN body) →
      WellScoped outer labels frames (.chain chain) →
      WellScoped outer labels frames (.stmt (.if_ condition (.scope scopeN body) chain))
  | while_ {frames condition scopeN body} : condition.Lowerable (Visible outer frames) →
      WellScoped outer labels frames (.block scopeN body) →
      WellScoped outer labels frames (.stmt (.while_ condition (.scope scopeN body)))
  | nil {frames} : WellScoped outer labels frames (.stmts [])
  | cons {frame frames node nodes} : WellScoped outer labels (frame :: frames) (.stmt node) →
      WellScoped outer labels (⟨frame.body, frame.before ++ [node]⟩ :: frames) (.stmts nodes) →
      WellScoped outer labels (frame :: frames) (.stmts (node :: nodes))
  | block {frames scopeN body} : WellScoped outer labels (⟨body, []⟩ :: frames) (.stmts body) →
      WellScoped outer labels frames (.block scopeN body)
  | noChain {frames} : WellScoped outer labels frames (.chain none)
  | elseIf {frames condition scopeN body chain} : condition.Lowerable (Visible outer frames) →
      WellScoped outer labels frames (.block scopeN body) →
      WellScoped outer labels frames (.chain chain) →
      WellScoped outer labels frames (.chain (some (.elseIf condition (.scope scopeN body) chain)))
  | else_ {frames scopeN body} : WellScoped outer labels frames (.block scopeN body) →
      WellScoped outer labels frames (.chain (some (.else_ scopeN body)))

/-! The symbol tables say what is visible. -/

section Names

variable {start heap : HsHeap} {base scope : List Nat} {frames : List Frame}

theorem HsHeap.Resolves.congr_iff {heap' : HsHeap} (same : ∀ id ∈ scope, heap'.sets id = heap.sets id)
    (name : CStr) : heap'.Resolves scope name ↔ heap.Resolves scope name := by
  induction scope with
  | nil => exact Iff.rfl
  | cons id parent ih =>
      have later := ih fun id member => same id (List.mem_cons_of_mem _ member)
      cases name with
      | none => simp [HsHeap.Resolves]
      | some name =>
          simp only [HsHeap.Resolves, same id List.mem_cons_self]
          cases heap.sets id with
          | none => exact Iff.rfl
          | some table =>
              cases entry : table.get name with
              | none => simpa [entry] using later
              | some info => simp [entry]

theorem not_names_none (names : List CStr) : ¬ Names names none := by
  rintro ⟨stored, -, given, -⟩
  cases given

/-- What resolves from inside the open blocks is what is visible there. -/
theorem Opened.resolves_iff (opened : Opened start heap base frames scope) (name : CStr) :
    heap.Resolves scope name ↔ Visible (start.Resolves base) frames name := by
  induction opened with
  | base kept => exact HsHeap.Resolves.congr_iff kept name
  | @block id frame frames scope opens outer ih =>
      obtain ⟨table, present, entries⟩ := opens
      cases name with
      | none =>
          rw [Visible, if_neg (not_names_none _), ← ih]
          cases scope with
          | nil => simp [HsHeap.Resolves]
          | cons id scope => simp [HsHeap.Resolves]
      | some name =>
          obtain ⟨kind, storage⟩ := entries name
          rw [Visible]
          by_cases declared : Names (autoNames frame.body) (some name)
          · rw [if_pos declared] at kind ⊢
            obtain ⟨info, entry, auto⟩ := Option.map_eq_some_iff.mp kind
            rw [← storage info entry]
            by_cases unset : info.tempDest = 0 <;>
              simp [HsHeap.Resolves, present, entry, VarInfo.lvalue?, auto, unset]
          · rw [if_neg declared] at kind ⊢
            rw [← ih]
            simp [HsHeap.Resolves, present, Option.map_eq_none_iff.mp kind]

theorem HsHeap.Keys.later {heap' : HsHeap} {lableTab : Nat} {declared : CStr → Prop}
    (lables : heap.Keys lableTab declared)
    (keys : SameKeys (heap.sets lableTab) (heap'.sets lableTab)) :
    heap'.Keys lableTab declared := by
  obtain ⟨table, present, entries⟩ := lables
  obtain ⟨table', present', same⟩ := keys table present
  refine ⟨table', present', fun name => ?_⟩
  rw [← entries, ← Option.isSome_map, same, Option.isSome_map]

end Names

/-! The steps of the generator that are neither expressions nor phrases. -/

/-- The computation ends with some value. -/
def Succeeds {α : Type} (action : IrM α) (ir : Ir) : Prop := ∃ value final, action ir = .ok value final

section Runs

variable {α β : Type} {action : IrM α} {next : α → IrM β} {ir final : Ir} {name : CStr}

private theorem succeeds_bind :
    Succeeds (action >>= next) ir ↔
      ∃ value middle, action ir = .ok value middle ∧ Succeeds (next value) middle := by
  constructor
  · rintro ⟨result, final, accepted⟩
    obtain ⟨value, middle, first, second⟩ := bind_eq_ok.mp accepted
    exact ⟨value, middle, first, result, final, second⟩
  · rintro ⟨value, middle, first, result, final, second⟩
    exact ⟨result, final, bind_eq_ok.mpr ⟨value, middle, first, second⟩⟩

private theorem succeeds_after {value : α} (first : action ir = .ok value final) :
    Succeeds (action >>= next) ir ↔ Succeeds (next value) final := by
  rw [Succeeds, bind_run_of_ok first]
  exact Iff.rfl

theorem AstNode.lowerable_iff {node : AstNode} {scope : List Nat} {resolves : CStr → Prop}
    (same : ∀ name, ir.heap.Resolves scope name ↔ resolves name) :
    (∃ t final, irExprF node scope ir = .ok t final) ↔ node.Lowerable resolves := by
  obtain rfl : ir.heap.Resolves scope = resolves := funext fun name => propext (same name)
  rw [← AstNode.Accepted, accepted_iff]
  exact ⟨fun ⟨known, fit, plain⟩ => ⟨known, fit, plain⟩,
    fun lowerable => ⟨lowerable.expression, lowerable.fit, lowerable.noUnaryPlus⟩⟩

private theorem setTempDest_run {id : Nat} {table : Hs} (present : ir.heap.sets id = some table)
    (name : Name) (info : VarInfo) (temp : Nat) :
    setTempDest id (some name) info temp ir =
      .ok () { ir with heap := ir.heap.write id (table.put name { info with tempDest := temp }) } := by
  simp only [setTempDest, bind_run, get_run, present, modify_run]

/-- A label has a number, or it gets one. -/
private theorem irNamedLable_succeeds {declared : CStr → Prop}
    (lables : ir.heap.Keys ir.tLableTab declared) (unnamed : ¬ declared none) :
    Succeeds (irNamedLable name) ir ↔ declared name := by
  obtain ⟨table, present, entries⟩ := lables
  rw [irNamedLable, succeeds_after (get_run _)]
  cases name with
  | none =>
      refine ⟨fun accepted => ?_, fun declares => absurd declares unnamed⟩
      obtain ⟨_, _, read, -⟩ := succeeds_bind.mp accepted
      simp [readHashSet, bind_run, present] at read
  | some name =>
      have read : readHashSet ir.tLableTab (some name) ir = .ok (table.get name) ir := by
        rw [readHashSet, bind_run_of_ok (get_run _), present]
        rfl
      rw [succeeds_after read, ← entries]
      cases entry : table.get name with
      | none =>
          constructor
          · intro accepted
            obtain ⟨_, _, accepted⟩ := accepted
            exact absurd accepted irFatal_ne_ok
          · intro declares
            simp at declares
      | some info =>
          refine iff_of_true ?_ rfl
          dsimp only
          split
          · refine (succeeds_after (newLable_run ir)).mpr ?_
            exact (succeeds_after (setTempDest_run (by exact present) ..)).mpr ⟨_, _, rfl⟩
          · exact ⟨_, _, rfl⟩

/-- A declaration of the innermost block is accepted. -/
private theorem irAutoS_succeeds {own lo size : Nat} {scope : List Nat} {declared : CStr → Prop}
    {name : Name} (ready : Ready declared scope own lo (.stmt (.auto (some name) size)) ir) :
    Succeeds (irAutoS (some name) scope) ir := by
  obtain ⟨parent, rfl⟩ := ready.innermost
  obtain ⟨table, info, present, entry, -⟩ := ready.autos name (List.mem_singleton.mpr rfl)
  have read : readHashSet own (some name) ir = .ok (some info) ir := by
    rw [readHashSet, bind_run_of_ok (get_run _), present, ← entry]
    rfl
  have looked : lookupSymbol (own :: parent) (some name) ir = .ok (some (own, info)) ir := by
    rw [lookupSymbol, bind_run_of_ok read]
    rfl
  rw [irAutoS, succeeds_after looked]
  change Succeeds (emitOp .alloc 0 0 >>= setTempDest own (some name) info) ir
  exact (succeeds_after (emitOp_run ir ..)).mpr ⟨_, _, setTempDest_run (by exact present) ..⟩

/-- An `if` is accepted when its condition, its block and the rest of the chain are, one
after the other. -/
private theorem irIfWith_succeeds {condition : AstNode} {scope : List Nat} {endLabelId : Nat}
    {body chain : IrM Unit} :
    Succeeds (irIfWith condition scope endLabelId body chain) ir ↔
      ∃ t ir', irExprF condition scope (ir.label 2) = .ok t ir' ∧ ∃ ir'',
        body ((ir'.add [.branch (ir.lableC + 1) (ir.lableC + 2) t]).add [.label (ir.lableC + 1)]) =
          .ok () ir'' ∧
        Succeeds chain ((ir''.add [.jump endLabelId]).add [.label (ir.lableC + 2)]) := by
  constructor
  · rintro ⟨_, final, accepted⟩
    obtain ⟨t, ir', ir'', lowered, bodyRun, chainRun⟩ := irIfWith_ok accepted
    exact ⟨t, ir', lowered, ir'', bodyRun, _, final, chainRun⟩
  · rintro ⟨t, ir', lowered, ir'', bodyRun, _, final, chainRun⟩
    refine ⟨(), final, ?_⟩
    rw [irIfWith, bind_run_of_ok (newLable_run ir), bind_run_of_ok (newLable_run _)]
    refine (bind_run_of_ok lowered).trans ?_
    rw [bind_run_of_ok (addIrNode_run ..), bind_run_of_ok (addIrNode_run ..)]
    refine (bind_run_of_ok bodyRun).trans ?_
    rw [bind_run_of_ok (addIrNode_run ..), bind_run_of_ok (addIrNode_run ..)]
    exact chainRun

private theorem irWhileWith_succeeds {condition : AstNode} {scope : List Nat} {body : IrM Unit} :
    Succeeds (irWhileWith condition scope body) ir ↔
      ∃ t ir', irExprF condition scope ((ir.label 3).add [.label (ir.lableC + 1)]) = .ok t ir' ∧
        Succeeds body
          ((ir'.add [.branch (ir.lableC + 2) (ir.lableC + 3) t]).add [.label (ir.lableC + 2)]) := by
  constructor
  · rintro ⟨_, final, accepted⟩
    obtain ⟨t, ir', ir'', lowered, bodyRun, -⟩ := irWhileWith_ok accepted
    exact ⟨t, ir', lowered, _, ir'', bodyRun⟩
  · rintro ⟨t, ir', lowered, _, ir'', bodyRun⟩
    refine ⟨(), (ir''.add [.jump (ir.lableC + 1)]).add [.label (ir.lableC + 3)], ?_⟩
    rw [irWhileWith, bind_run_of_ok (newLable_run ir), bind_run_of_ok (newLable_run _),
      bind_run_of_ok (newLable_run _), bind_run_of_ok (addIrNode_run ..)]
    refine (bind_run_of_ok lowered).trans ?_
    rw [bind_run_of_ok (addIrNode_run ..), bind_run_of_ok (addIrNode_run ..)]
    exact (bind_run_of_ok bodyRun).trans rfl

end Runs

/-! Phrases, by induction on the tree that the parser has built. `Posed` is what the generator
state has in common with the frames whenever a phrase is reached. -/

/-- What is known where a phrase is generated inside of open blocks. -/
structure Posed (start : HsHeap) (base : List Nat) (declared : CStr → Prop) (frames : List Frame)
    (scope : List Nat) (own lo : Nat) (phrase : ScopePhrase) (ir : Ir) : Prop where
  ready : Ready declared scope own lo phrase ir
  inside : frames ≠ []
  opened : Opened start ir.heap base frames scope
  lables : ir.heap.Keys ir.tLableTab declared
  position : ∀ nodes, phrase = .stmts nodes →
    ∃ frame outer, frames = frame :: outer ∧ frame.body = frame.before ++ nodes

section Posed

variable {start : HsHeap} {base scope : List Nat} {declared : CStr → Prop} {frames : List Frame}
  {own lo mid hi : Nat} {phrase phrase' : ScopePhrase} {ir final : Ir} {node : AstNode}
  {nodes : List AstNode}

theorem Posed.lowerable_iff (posed : Posed start base declared frames scope own lo phrase ir)
    {ir' : Ir} (heap : ir'.heap = ir.heap) (node : AstNode) :
    (∃ t final, irExprF node scope ir' = .ok t final) ↔
      node.Lowerable (Visible (start.Resolves base) frames) :=
  AstNode.lowerable_iff fun name => heap ▸ posed.opened.resolves_iff name

theorem Posed.same (posed : Posed start base declared frames scope own lo phrase ir)
    {ir' : Ir} (heap : ir'.heap = ir.heap) (lableTab : ir'.tLableTab = ir.tLableTab)
    (autos : phrase'.autos = []) (other : ∀ nodes, phrase' ≠ .stmts nodes) :
    Posed start base declared frames scope own lo phrase' ir' where
  ready := posed.ready.same heap lableTab autos
  inside := posed.inside
  opened := heap ▸ posed.opened
  lables := by rw [heap, lableTab]; exact posed.lables
  position nodes same := absurd same (other nodes)

/-- At the first statement of a list. -/
theorem Posed.first
    (posed : Posed start base declared frames scope own lo (.stmts (node :: nodes)) ir) :
    Posed start base declared frames scope own lo (.stmt node) ir :=
  ⟨posed.ready.first, posed.inside, posed.opened, posed.lables, by simp⟩

/-- After the first statement of a list. -/
theorem Posed.rest {frame : Frame} {endLable : Nat} {trail trail' : Trail}
    {code : List (IrNode × List Nat)}
    (posed : Posed start base declared (frame :: frames) scope own lo (.stmts (node :: nodes)) ir)
    (generated : Generated declared scope own lo mid endLable (.stmt node) ir final trail trail' code)
    (low : lo ≤ mid) :
    Posed start base declared (⟨frame.body, frame.before ++ [node]⟩ :: frames) scope own mid
      (.stmts nodes) final where
  ready := posed.ready.later generated.changed generated.lableTab low
    fun _ => posed.ready.rest_autos
  inside := List.cons_ne_nil _ _
  opened := posed.opened.later [node] posed.ready.first generated generated.generates.vars_stmt
  lables := generated.lableTab ▸ posed.lables.later generated.changed.lable_keys
  position nodes' same := by
    cases same
    obtain ⟨_, _, same, body⟩ := posed.position _ rfl
    cases same
    exact ⟨_, _, rfl, by rw [body, List.append_assoc]; rfl⟩

/-- After a block, at what follows it in the scope around it. -/
theorem Posed.after {endLable : Nat} {trail trail' : Trail} {code : List (IrNode × List Nat)}
    (posed : Posed start base declared frames scope own lo phrase ir)
    (generated : Generated declared scope own lo mid endLable phrase ir final trail trail' code)
    (low : lo ≤ mid) (undeclared : phrase.autos = []) (autos : phrase'.autos = [])
    (other : ∀ nodes, phrase' ≠ .stmts nodes) :
    Posed start base declared frames scope own mid phrase' final where
  ready := posed.ready.later generated.changed generated.lableTab low fun name member => by
    rw [autos] at member
    cases member
  inside := posed.inside
  opened := posed.opened.same posed.inside posed.ready generated undeclared
  lables := generated.lableTab ▸ posed.lables.later generated.changed.lable_keys
  position nodes same := absurd same (other nodes)

/-- Inside a block. -/
private theorem posed_block {body : List AstNode}
    (ready : Ready declared scope own lo phrase ir) (opened : Opened start ir.heap base frames scope)
    (lables : ir.heap.Keys ir.tLableTab declared)
    (declares : ir.heap.Declares lo autoInfo (autoNames body)) :
    Posed start base declared (⟨body, []⟩ :: frames) (lo :: scope) lo (lo + 1) (.stmts body) ir where
  ready := ⟨ready.placed.inner, ⟨scope, rfl⟩, ready.known, ownAutos_of_declares declares⟩
  inside := List.cons_ne_nil _ _
  opened := .block declares.opens opened
  lables := lables
  position nodes same := by
    cases same
    exact ⟨_, _, rfl, rfl⟩

/-- The generator accepts the phrase exactly where it is well within. -/
def AcceptedIff (start : HsHeap) (base : List Nat) (declared : CStr → Prop) (heap : HsHeap)
    (phrase : ScopePhrase) (scope : List Nat) (lo hi : Nat) : Prop :=
  ∀ (endLable : Nat) {own frames ir}, Posed start base declared frames scope own lo phrase ir →
    (∀ id : Nat, lo ≤ id → id < hi → ir.heap.sets id = heap.sets id) →
    (Succeeds (irPhrase endLable scope phrase) ir ↔
      WellScoped (start.Resolves base) declared frames phrase)

/-- A block is freed whatever its body has done. -/
private theorem irScopeWith_succeeds {endLable : Nat} {body : List AstNode} {heap : HsHeap}
    (inner : Built heap (.stmts body) (lo :: scope) (lo + 1) hi)
    (posed : Posed start base declared frames (lo :: scope) lo (lo + 1) (.stmts body) ir)
    (agree : ∀ id : Nat, lo + 1 ≤ id → id < hi → ir.heap.sets id = heap.sets id) :
    Succeeds (irPhrase endLable scope (.block ⟨lo, scope⟩ body)) ir ↔
      Succeeds (irPhrase endLable (lo :: scope) (.stmts body)) ir := by
  change Succeeds (irScopeBody body (lo :: scope) >>= fun _ => freeHashSet lo) ir ↔
    Succeeds (irScopeBody body (lo :: scope)) ir
  rw [succeeds_bind]
  constructor
  · rintro ⟨value, middle, ran, -⟩
    exact ⟨value, middle, ran⟩
  · rintro ⟨value, middle, ran⟩
    refine ⟨value, middle, ran, ?_⟩
    obtain ⟨code, trail', generated⟩ := built_handles inner endLable ⟨[], []⟩ posed.ready agree ran
    have alive : (middle.heap.sets lo).isSome := by
      obtain ⟨frame, outer, same, -⟩ := posed.position body rfl
      have opened := posed.opened
      rw [same] at opened
      cases opened with
      | block opens _ =>
          obtain ⟨table, present, -⟩ := opens
          obtain ⟨table', present', -⟩ := generated.changed.own_keys table present
          rw [present']
          rfl
    obtain ⟨table, present⟩ := Option.isSome_iff_exists.mp alive
    refine ⟨(), { middle with heap := middle.heap.free lo }, ?_⟩
    rw [freeHashSet, bind_run_of_ok (get_run _), present]
    rfl

/-- An `if`, given what is known of its block and of the rest of its chain. -/
private theorem irIfWith_acceptedIff {heap : HsHeap} {condition : AstNode} {scopeN : AstScope}
    {body : List AstNode} {chain : Option AstNode} {endLable : Nat}
    (block : Built heap (.block scopeN body) scope lo mid) (high : mid ≤ hi)
    (blockIff : AcceptedIff start base declared heap (.block scopeN body) scope lo mid)
    (chainIff : AcceptedIff start base declared heap (.chain chain) scope mid hi)
    (posed : Posed start base declared frames scope own lo phrase ir)
    (agree : ∀ id : Nat, lo ≤ id → id < hi → ir.heap.sets id = heap.sets id) :
    Succeeds (irIfWith condition scope endLable (irBody (.scope scopeN body))
        (irChain chain scope endLable)) ir ↔
      condition.Lowerable (Visible (start.Resolves base) frames) ∧
        WellScoped (start.Resolves base) declared frames (.block scopeN body) ∧
        WellScoped (start.Resolves base) declared frames (.chain chain) := by
  have agreeBlock : ∀ id : Nat, lo ≤ id → id < mid → ir.heap.sets id = heap.sets id :=
    fun id lower upper => agree id lower (Nat.lt_of_lt_of_le upper high)
  have conditionIff := posed.lowerable_iff (rfl : (ir.label 2).heap = ir.heap) condition
  -- where the block is generated
  have blockPosed : ∀ {t ir'}, irExprF condition scope (ir.label 2) = .ok t ir' →
      ir'.heap = ir.heap ∧ Posed start base declared frames scope own lo (.block scopeN body)
        ((ir'.add [.branch (ir.lableC + 1) (ir.lableC + 2) t]).add [.label (ir.lableC + 1)]) := by
    intro t ir' lowered
    obtain ⟨code, tempC, -, rfl⟩ := irExprF_lowers condition lowered
    exact ⟨rfl, posed.same rfl rfl rfl (by simp)⟩
  -- where the rest of the chain is generated
  have chainPosed : ∀ {t ir' ir''}, irExprF condition scope (ir.label 2) = .ok t ir' →
      irBody (.scope scopeN body)
        ((ir'.add [.branch (ir.lableC + 1) (ir.lableC + 2) t]).add [.label (ir.lableC + 1)]) =
          .ok () ir'' →
      Posed start base declared frames scope own mid (.chain chain)
        ((ir''.add [.jump endLable]).add [.label (ir.lableC + 2)]) ∧
      ∀ id : Nat, mid ≤ id → id < hi → ir''.heap.sets id = heap.sets id := by
    intro t ir' ir'' lowered bodyRun
    obtain ⟨same, blockPosed⟩ := blockPosed lowered
    obtain ⟨code, trail', generated⟩ := built_handles block endLable ⟨[], []⟩ blockPosed.ready
      (by rw [← same] at agreeBlock; exact agreeBlock) bodyRun
    have after : Posed start base declared frames scope own mid (.chain chain) ir'' :=
      blockPosed.after generated block.le rfl rfl (by simp)
    refine ⟨after.same rfl rfl rfl (by simp), ?_⟩
    rw [← same] at agree
    exact agree_later blockPosed.ready generated.changed block.le agree
  rw [irIfWith_succeeds]
  constructor
  · rintro ⟨t, ir', lowered, ir'', bodyRun, chainRun⟩
    obtain ⟨same, blockPosed⟩ := blockPosed lowered
    obtain ⟨chainPosed, agreeChain⟩ := chainPosed lowered bodyRun
    rw [← same] at agreeBlock
    exact ⟨conditionIff.mp ⟨t, ir', lowered⟩,
      (blockIff endLable blockPosed agreeBlock).mp ⟨(), ir'', bodyRun⟩,
      (chainIff endLable chainPosed agreeChain).mp chainRun⟩
  · rintro ⟨lowerable, blockScoped, chainScoped⟩
    obtain ⟨t, ir', lowered⟩ := conditionIff.mpr lowerable
    obtain ⟨same, blockPosed⟩ := blockPosed lowered
    rw [← same] at agreeBlock
    obtain ⟨_, ir'', bodyRun⟩ := (blockIff endLable blockPosed agreeBlock).mpr blockScoped
    obtain ⟨chainPosed, agreeChain⟩ := chainPosed lowered bodyRun
    exact ⟨t, ir', lowered, ir'', bodyRun, (chainIff endLable chainPosed agreeChain).mpr chainScoped⟩

private theorem built_acceptedIff {heap : HsHeap} (unnamed : ¬ declared none)
    (built : Built heap phrase scope lo hi)
    (named : ∀ name : Name, some name ∈ phrase.lables → declared (some name)) :
    AcceptedIff start base declared heap phrase scope lo hi := by
  induction built with
  | return_ =>
      intro endLable own frames ir posed agree
      change Succeeds (irExprF _ _ >>= fun t => addIrNode (.ret t)) ir ↔ _
      rw [succeeds_bind]
      refine ⟨fun ⟨t, middle, lowered, _⟩ =>
        .return_ ((posed.lowerable_iff rfl _).mp ⟨t, middle, lowered⟩), fun within => ?_⟩
      cases within with
      | return_ lowerable =>
          obtain ⟨t, middle, lowered⟩ := (posed.lowerable_iff rfl _).mpr lowerable
          exact ⟨t, middle, lowered, (), _, addIrNode_run ..⟩
  | expr =>
      intro endLable own frames ir posed agree
      refine ⟨fun ⟨_, final, accepted⟩ => ?_, fun within => ?_⟩
      · obtain ⟨t, lowered⟩ := discard_eq_ok.mp accepted
        exact .expr ((posed.lowerable_iff rfl _).mp ⟨t, final, lowered⟩)
      · cases within with
        | expr lowerable =>
            obtain ⟨t, final, lowered⟩ := (posed.lowerable_iff rfl _).mpr lowerable
            exact ⟨(), final, discard_eq_ok.mpr ⟨t, lowered⟩⟩
  | @goto name =>
      intro endLable own frames ir posed agree
      have numbered : Succeeds (irNamedLable name) ir ↔ declared name :=
        irNamedLable_succeeds posed.lables unnamed
      change Succeeds (irNamedLable name >>= fun id => addIrNode (.jump id)) ir ↔ _
      rw [succeeds_bind]
      refine ⟨fun ⟨id, middle, ran, _⟩ => .goto (numbered.mp ⟨id, middle, ran⟩), fun within => ?_⟩
      cases within with
      | goto known =>
          obtain ⟨id, middle, ran⟩ := numbered.mpr known
          exact ⟨id, middle, ran, (), _, addIrNode_run ..⟩
  | @lable name =>
      intro endLable own frames ir posed agree
      change Succeeds (irNamedLable _ >>= fun id => addIrNode (.label id)) ir ↔ _
      refine iff_of_true ?_ .lable
      obtain ⟨id, middle, ran⟩ := (irNamedLable_succeeds posed.lables unnamed).mpr
        (named name (List.mem_singleton.mpr rfl))
      exact succeeds_bind.mpr ⟨id, middle, ran, (), _, addIrNode_run ..⟩
  | extrn =>
      intro endLable own frames ir posed agree
      exact iff_of_true ⟨(), _, rfl⟩ .extrn
  | auto =>
      intro endLable own frames ir posed agree
      exact iff_of_true (irAutoS_succeeds posed.ready) .auto
  | scope block ih =>
      intro endLable own frames ir posed agree
      have blockIff := ih named endLable (posed.same rfl rfl rfl (by simp)) agree
      refine blockIff.trans ⟨.scope, fun within => ?_⟩
      cases within with
      | scope inner => exact inner
  | @if_ condition scopeN body chain scope lo mid hi block rest blockIH chainIH =>
      intro endLable own frames ir posed agree
      obtain ⟨rfl⟩ := block.scopeN_eq
      have blockIff := blockIH fun name member => named name (List.mem_append_left _ member)
      have chainIff := chainIH fun name member => named name (List.mem_append_right _ member)
      have counted : Posed start base declared frames scope own lo (.chain none) (ir.label 1) :=
        posed.same rfl rfl rfl (by simp)
      have parts : Succeeds (irIfWith condition scope (ir.lableC + 1)
            (irBody (.scope ⟨lo, scope⟩ body)) (irChain chain scope (ir.lableC + 1))) (ir.label 1) ↔ _ :=
        irIfWith_acceptedIff block rest.le blockIff chainIff counted agree
      change Succeeds (do
        let endLabelId ← newLable
        irIfWith condition scope endLabelId (irBody (.scope ⟨lo, scope⟩ body))
          (irChain chain scope endLabelId)
        addIrNode (.label endLabelId)) ir ↔ _
      rw [succeeds_after (newLable_run ir), succeeds_bind]
      constructor
      · rintro ⟨_, middle, ran, -⟩
        obtain ⟨lowerable, blockScoped, chainScoped⟩ := parts.mp ⟨(), middle, ran⟩
        exact .if_ lowerable blockScoped chainScoped
      · intro within
        cases within with
        | if_ lowerable blockScoped chainScoped =>
            obtain ⟨_, middle, ran⟩ := parts.mpr ⟨lowerable, blockScoped, chainScoped⟩
            exact ⟨(), middle, ran, (), _, addIrNode_run ..⟩
  | @while_ condition scopeN body scope lo hi block ih =>
      intro endLable own frames ir posed agree
      obtain ⟨rfl⟩ := block.scopeN_eq
      have blockIff := ih named
      have conditionIff := posed.lowerable_iff
        (rfl : ((ir.label 3).add [.label (ir.lableC + 1)]).heap = ir.heap) condition
      change Succeeds (irWhileWith condition scope (irBody (.scope ⟨lo, scope⟩ body))) ir ↔ _
      rw [irWhileWith_succeeds]
      have inside : ∀ {t ir'},
          irExprF condition scope ((ir.label 3).add [.label (ir.lableC + 1)]) = .ok t ir' →
          (Succeeds (irBody (.scope ⟨lo, scope⟩ body))
            ((ir'.add [.branch (ir.lableC + 2) (ir.lableC + 3) t]).add [.label (ir.lableC + 2)]) ↔
          WellScoped (start.Resolves base) declared frames (.block ⟨lo, scope⟩ body)) := by
        intro t ir' lowered
        obtain ⟨code, tempC, -, rfl⟩ := irExprF_lowers condition lowered
        have blockPosed : Posed start base declared frames scope own lo
            (.block ⟨lo, scope⟩ body)
            (((((ir.label 3).add [.label (ir.lableC + 1)]).append code tempC).add
              [.branch (ir.lableC + 2) (ir.lableC + 3) t]).add [.label (ir.lableC + 2)]) :=
          posed.same rfl rfl rfl (by simp)
        exact blockIff endLable blockPosed agree
      constructor
      · rintro ⟨t, ir', lowered, bodyRun⟩
        exact .while_ (conditionIff.mp ⟨t, ir', lowered⟩) ((inside lowered).mp bodyRun)
      · intro within
        cases within with
        | while_ lowerable blockScoped =>
            obtain ⟨t, ir', lowered⟩ := conditionIff.mpr lowerable
            exact ⟨t, ir', lowered, (inside lowered).mpr blockScoped⟩
  | nil =>
      intro endLable own frames ir posed agree
      exact iff_of_true ⟨(), ir, rfl⟩ .nil
  | @cons node nodes scope lo mid hi first rest firstIH restIH =>
      intro endLable own frames ir posed agree
      have agreeFirst : ∀ id : Nat, lo ≤ id → id < mid → ir.heap.sets id = heap.sets id :=
        fun id lower upper => agree id lower (Nat.lt_of_lt_of_le upper rest.le)
      have firstIff := firstIH (fun name member => named name (List.mem_append_left _ member))
        endLable posed.first agreeFirst
      have restIff := restIH fun name member => named name (List.mem_append_right _ member)
      obtain ⟨frame, outer, rfl, -⟩ := posed.position _ rfl
      change Succeeds (irStatements node scope >>= fun _ => irScopeBody nodes scope) ir ↔ _
      rw [succeeds_bind]
      have later : ∀ {u middle}, irStatements node scope ir = .ok u middle →
          (Succeeds (irScopeBody nodes scope) middle ↔ WellScoped (start.Resolves base) declared
            (⟨frame.body, frame.before ++ [node]⟩ :: outer) (.stmts nodes)) := by
        intro u middle ran
        obtain ⟨code, trail', generated⟩ :=
          built_handles first endLable ⟨[], []⟩ posed.ready.first agreeFirst ran
        exact restIff endLable (posed.rest generated first.le)
          (agree_later posed.ready.first generated.changed first.le agree)
      constructor
      · rintro ⟨u, middle, ran, others⟩
        exact .cons (firstIff.mp ⟨u, middle, ran⟩) ((later ran).mp others)
      · intro within
        cases within with
        | cons firstScoped restScoped =>
            obtain ⟨u, middle, ran⟩ := firstIff.mpr firstScoped
            exact ⟨u, middle, ran, (later ran).mpr restScoped⟩
  | @block body scope lo hi declares inner ih =>
      intro endLable own frames ir posed agree
      have agreeInner : ∀ id : Nat, lo + 1 ≤ id → id < hi → ir.heap.sets id = heap.sets id :=
        fun id lower upper => agree id (Nat.le_of_succ_le lower) upper
      have inside := posed_block posed.ready posed.opened posed.lables
        (declares.congr (agree lo (Nat.le_refl lo) inner.le))
      rw [irScopeWith_succeeds inner inside agreeInner, ih named endLable inside agreeInner]
      refine ⟨.block, fun within => ?_⟩
      cases within with
      | block inner => exact inner
  | noChain =>
      intro endLable own frames ir posed agree
      exact iff_of_true ⟨(), ir, rfl⟩ .noChain
  | elseIf block rest blockIH chainIH =>
      intro endLable own frames ir posed agree
      have blockIff := blockIH fun name member => named name (List.mem_append_left _ member)
      have chainIff := chainIH fun name member => named name (List.mem_append_right _ member)
      refine (irIfWith_acceptedIff block rest.le blockIff chainIff posed agree).trans ⟨?_, ?_⟩
      · rintro ⟨lowerable, blockScoped, chainScoped⟩
        exact .elseIf lowerable blockScoped chainScoped
      · intro within
        cases within with
        | elseIf lowerable blockScoped chainScoped => exact ⟨lowerable, blockScoped, chainScoped⟩
  | else_ block ih =>
      intro endLable own frames ir posed agree
      have blockIff := ih named endLable (posed.same rfl rfl rfl (by simp)) agree
      refine blockIff.trans ⟨.else_, fun within => ?_⟩
      cases within with
      | else_ inner => exact inner

end Posed

/-! Functions and programs. -/

section Functions

variable {ir : Ir} {globalTable paramsTab lableTab params lo hi : Nat} {name : CStr}
  {scopeN : AstScope} {body nodes : List AstNode}

private theorem keys_of_declares {heap : HsHeap}
    (declares : heap.Declares lableTab lableInfo (lablesOf body)) :
    heap.Keys lableTab (Names (lablesOf body)) := by
  obtain ⟨table, present, entries⟩ := declares
  refine ⟨table, present, fun name => ?_⟩
  rw [entries]
  by_cases known : Names (lablesOf body) (some name) <;> simp [known]

private theorem freeHashSet_run {id : Nat} (alive : (ir.heap.sets id).isSome) :
    freeHashSet id ir = .ok () { ir with heap := ir.heap.free id } := by
  obtain ⟨table, present⟩ := Option.isSome_iff_exists.mp alive
  rw [freeHashSet, bind_run_of_ok (get_run _), present]
  rfl

/-- The end of `ir_function_s` frees the two tables, which nothing has freed before. -/
private theorem functionEnd_succeeds (params_alive : (ir.heap.sets paramsTab).isSome)
    (lables_alive : (ir.heap.sets lableTab).isSome) (different : lableTab ≠ paramsTab) :
    Succeeds (do
      unless (← get).nodes.getLast?.any (·.isRet) do
        let zeroTemp ← emitConst .const 0
        addIrNode (.ret zeroTemp)
      freeHashSet paramsTab
      freeHashSet lableTab
      return IrTop.function name params (← get).nodes : IrM IrTop) ir := by
  have freed : ∀ ir' : Ir, ir'.heap = ir.heap → Succeeds (do
      freeHashSet paramsTab
      freeHashSet lableTab
      return IrTop.function name params (← get).nodes : IrM IrTop) ir' := by
    intro ir' same
    rw [succeeds_after (freeHashSet_run (by rw [same]; exact params_alive))]
    refine (succeeds_after (freeHashSet_run ?_)).mpr ⟨_, _, rfl⟩
    rw [HsHeap.free_of_ne _ different, same]
    exact lables_alive
  rw [succeeds_after (get_run ir)]
  cases ir.nodes.getLast?.any (·.isRet) with
  | true => exact freed ir rfl
  | false =>
      change Succeeds (emitConst .const 0 >>= fun zeroTemp => addIrNode (.ret zeroTemp) >>= _) ir
      rw [succeeds_after (emitConst_run ..), succeeds_after (addIrNode_run ..)]
      exact freed _ rfl

/-- A function with a braced body is accepted when its body is well scoped. -/
private theorem irFunctionS_succeeds
    (built : FunctionBuilt ir.heap globalTable paramsTab lableTab params scopeN body lo hi)
    (global : globalTable < lo) :
    Succeeds (irFunctionS (.function name paramsTab lableTab params (.scope scopeN body))) ir ↔
      WellScoped (ir.heap.Resolves [paramsTab, globalTable]) (Names (lablesOf body)) []
        (.block scopeN body) := by
  have ready := built.ready global
  obtain ⟨rfl, rfl, params_in, lables_in, block⟩ := built
  have entered : irFunctionS (.function name paramsTab (paramsTab + 1) params (.scope scopeN body)) ir =
      (irPhrase 0 [paramsTab, globalTable] (.block scopeN body) >>= fun _ => do
        unless (← get).nodes.getLast?.any (·.isRet) do
          let zeroTemp ← emitConst .const 0
          addIrNode (.ret zeroTemp)
        freeHashSet paramsTab
        freeHashSet (paramsTab + 1)
        return IrTop.function name params (← get).nodes : IrM IrTop)
          (ir.atBody (paramsTab + 1) params) := by
    rw [irFunctionS, bind_run_of_ok (modify_run ..), bind_run_of_ok (newLable_run _),
      bind_run_of_ok (addIrNode_run ..), bind_run_of_ok (irParams_run ..)]
    rfl
  have blockIff : Succeeds (irPhrase 0 [paramsTab, globalTable] (.block scopeN body))
        (ir.atBody (paramsTab + 1) params) ↔
      WellScoped (ir.heap.Resolves [paramsTab, globalTable]) (Names (lablesOf body)) []
        (.block scopeN body) := by
    have opened : Opened ir.heap (ir.atBody (paramsTab + 1) params).heap [paramsTab, globalTable] []
        [paramsTab, globalTable] := .base fun _ _ => rfl
    cases block with
    | block declares inner =>
        have inside := posed_block ready opened (keys_of_declares lables_in) declares
        have named : ∀ name : Name, some name ∈ (ScopePhrase.stmts body).lables →
            Names (lablesOf body) (some name) := fun name member => ⟨_, member, rfl, rfl⟩
        rw [irScopeWith_succeeds inner inside fun _ _ _ => rfl,
          built_acceptedIff (not_names_none _) inner named 0 inside fun _ _ _ => rfl]
        refine ⟨.block, fun within => ?_⟩
        cases within with
        | block inner => exact inner
  rw [Succeeds, entered, ← Succeeds, succeeds_bind, ← blockIff]
  constructor
  · intro accepted
    obtain ⟨u, middle, ran, -⟩ := accepted
    exact ⟨u, middle, ran⟩
  intro accepted
  obtain ⟨u, middle, ran⟩ := accepted
  refine ⟨u, middle, ran, ?_⟩
  obtain ⟨code, trail', generated⟩ := built_handles block 0 ⟨[1], []⟩ ready (fun _ _ _ => rfl) ran
  obtain ⟨table, present, -⟩ := params_in
  obtain ⟨table', present', -⟩ := lables_in
  obtain ⟨_, params_alive, -⟩ := generated.changed.own_keys table present
  obtain ⟨_, lables_alive, -⟩ := generated.changed.lable_keys table' present'
  exact functionEnd_succeeds (Option.isSome_iff_exists.mpr ⟨_, params_alive⟩)
    (Option.isSome_iff_exists.mpr ⟨_, lables_alive⟩) (Nat.succ_ne_self _)

/-- The functions of a program have braced bodies that are well scoped. -/
def FunctionsScoped (heap : HsHeap) (globalTable : Nat) (nodes : List AstNode) : Prop :=
  ∀ name paramsTab lableTab params body, .function name paramsTab lableTab params body ∈ nodes →
    ∃ scopeN inner, body = .scope scopeN inner ∧
      WellScoped (heap.Resolves [paramsTab, globalTable]) (Names (lablesOf inner)) []
        (.block scopeN inner)

theorem ProgramBuilt.function_built {heap : HsHeap}
    (built : ProgramBuilt heap globalTable nodes lo hi)
    (member : .function name paramsTab lableTab params (.scope scopeN body) ∈ nodes) :
    ∃ lo' hi', lo ≤ lo' ∧
      FunctionBuilt heap globalTable paramsTab lableTab params scopeN body lo' hi' := by
  induction built with
  | nil => cases member
  | function built _ ih =>
      rcases List.mem_cons.mp member with same | member
      · cases same
        exact ⟨_, _, Nat.le_refl _, built⟩
      · obtain ⟨lo', hi', ordered, function⟩ := ih member
        have low := built.block.le
        exact ⟨lo', hi', by omega, function⟩
  | unbraced notScope _ ordered _ ih =>
      rcases List.mem_cons.mp member with same | member
      · cases same
        exact absurd rfl notScope
      · obtain ⟨lo', hi', later, function⟩ := ih member
        exact ⟨lo', hi', Nat.le_trans ordered later, function⟩
  | global _ ih | extrn _ ih =>
      rcases List.mem_cons.mp member with same | member
      · cases same
      · exact ih member

private theorem functionsScoped_congr {heap heap' : HsHeap} (built : ProgramBuilt heap globalTable nodes lo hi)
    (global : heap'.sets globalTable = heap.sets globalTable)
    (same : ∀ id : Nat, lo ≤ id → heap'.sets id = heap.sets id) :
    FunctionsScoped heap' globalTable nodes ↔ FunctionsScoped heap globalTable nodes := by
  unfold FunctionsScoped
  refine forall₅_congr fun name paramsTab lableTab params body => forall_congr' fun member =>
    exists₂_congr fun scopeN inner => and_congr_right fun braced => ?_
  subst braced
  have resolves : heap'.Resolves [paramsTab, globalTable] = heap.Resolves [paramsTab, globalTable] := by
    refine funext fun name => propext (HsHeap.Resolves.congr_iff (fun id member' => ?_) name)
    rcases List.mem_cons.mp member' with rfl | member'
    · obtain ⟨_, _, ordered, function⟩ := built.function_built member
      exact same _ (function.paramsTab_eq ▸ ordered)
    · obtain rfl := List.mem_singleton.mp member'
      exact global
  rw [resolves]

private theorem genIrLoop_succeeds (built : ProgramBuilt ir.heap globalTable nodes lo hi)
    (global : globalTable < lo) :
    Succeeds (genIrLoop nodes) ir ↔ FunctionsScoped ir.heap globalTable nodes := by
  induction nodes generalizing ir lo with
  | nil => exact iff_of_true ⟨(), ir, rfl⟩ fun _ _ _ _ _ member => by cases member
  | cons node nodes ih =>
      have skip : ∀ {ir' : Ir}, ir'.heap = ir.heap → genIrLoop (node :: nodes) ir = genIrLoop nodes ir' →
          (∀ name paramsTab lableTab params body,
            node ≠ .function name paramsTab lableTab params body) →
          ProgramBuilt ir.heap globalTable nodes lo hi →
          (Succeeds (genIrLoop (node :: nodes)) ir ↔
            FunctionsScoped ir.heap globalTable (node :: nodes)) := by
        intro ir' same run other later
        rw [Succeeds, run, ← Succeeds, ih (by rw [same]; exact later) global, same]
        constructor
        · intro all name paramsTab lableTab params body member
          rcases List.mem_cons.mp member with first | member
          · exact absurd first.symm (other _ _ _ _ _)
          · exact all name paramsTab lableTab params body member
        · exact fun all name paramsTab lableTab params body member =>
            all name paramsTab lableTab params body (List.mem_cons_of_mem _ member)
      cases built with
      | @function name paramsTab lableTab params scopeN body nodes lo mid hi built later =>
          have low := built.block.le
          have high := later.le
          change Succeeds (irFunctionS _ >>= fun top => addIrTop top >>= fun _ => genIrLoop nodes) ir ↔ _
          rw [succeeds_bind]
          -- the functions behind it find their tables as they were
          have rest : ∀ {top middle}, irFunctionS
              (.function name paramsTab lableTab params (.scope scopeN body)) ir = .ok top middle →
              (Succeeds (addIrTop top >>= fun _ => genIrLoop nodes) middle ↔
                FunctionsScoped ir.heap globalTable nodes) := by
            intro top middle generated
            obtain ⟨made, _, _, rfl, _, kept⟩ := irFunctionS_ok built global generated
            have same : ∀ id : Nat, id < lo ∨ mid ≤ id → middle.heap.sets id = ir.heap.sets id := kept
            have later' := later.congr fun id lower _ => same id (.inr lower)
            have added : addIrTop (.function name params made) middle =
                .ok () { middle with irTail := middle.irTail ++ [.function name params made] } := rfl
            rw [succeeds_after added, ih (by exact later') (by omega)]
            exact functionsScoped_congr later (same globalTable (.inl global)) fun id lower =>
              same id (.inr lower)
          constructor
          · rintro ⟨top, middle, generated, others⟩
            have first := (irFunctionS_succeeds built global).mp ⟨top, middle, generated⟩
            intro name' paramsTab' lableTab' params' body' member
            rcases List.mem_cons.mp member with same | member
            · cases same
              exact ⟨scopeN, body, rfl, first⟩
            · exact (rest generated).mp others _ _ _ _ _ member
          · intro all
            obtain ⟨_, _, same, first⟩ := all _ _ _ _ _ List.mem_cons_self
            cases same
            obtain ⟨top, middle, generated⟩ : Succeeds (irFunctionS
                (.function name paramsTab lableTab params (.scope scopeN body))) ir :=
              (irFunctionS_succeeds built global).mpr first
            exact ⟨top, middle, generated, (rest generated).mpr fun _ _ _ _ _ member =>
              all _ _ _ _ _ (List.mem_cons_of_mem _ member)⟩
      | unbraced notScope notElse ordered later =>
          refine iff_of_false ?_ fun all => ?_
          · rintro ⟨_, final, accepted⟩
            obtain ⟨top, middle, generated, _⟩ := bind_eq_ok.mp accepted
            exact irFunctionS_unbraced notScope notElse generated
          · obtain ⟨_, _, rfl, -⟩ := all _ _ _ _ _ List.mem_cons_self
            exact notScope rfl
      | @global name size _ _ _ later =>
          have run : genIrLoop (.global name size :: nodes) ir =
              genIrLoop nodes { ir with irTail := ir.irTail ++ [.global name size] } := rfl
          exact skip (by rfl) run (by simp) later
      | @extrn name _ _ _ later =>
          have run : genIrLoop (.extrn name :: nodes) ir =
              genIrLoop nodes { ir with irTail := ir.irTail ++ [.extrn name] } := rfl
          exact skip (by rfl) run (by simp) later

/-- Outside of the blocks of a function are its parameters and the globals of the program. -/
def Parser.Outer (p : Parser) (paramsTab : Nat) : CStr → Prop
  | none => False
  | some name => p.heap.HasParam paramsTab name ∨ Names (globalNames p.ast) (some name)

/-- Every function has a braced body, and that is well scoped. -/
def Parser.ProgramScoped (p : Parser) : Prop :=
  ∀ name paramsTab lableTab params body, .function name paramsTab lableTab params body ∈ p.ast →
    ∃ scopeN inner, body = .scope scopeN inner ∧
      WellScoped (p.Outer paramsTab) (Names (lablesOf inner)) [] (.block scopeN inner)

/-- What resolves outside of a function's blocks. -/
private theorem outer_iff {p : Parser} (params_in : p.heap.ParamsIn paramsTab params)
    (declared : p.heap.Declares p.globalTable globalInfo (globalNames p.ast)) (name : CStr) :
    p.heap.Resolves [paramsTab, p.globalTable] name ↔ p.Outer paramsTab name := by
  obtain ⟨locals, localsPresent, entries⟩ := params_in
  obtain ⟨globals, globalsPresent, names⟩ := declared
  cases name with
  | none => simp [HsHeap.Resolves, Parser.Outer]
  | some name =>
      cases entry : locals.get name with
      | some info =>
          obtain ⟨auto, numbered, -⟩ := entries name info entry
          have stored : info.tempDest ≠ 0 := by omega
          simp [HsHeap.Resolves, Parser.Outer, HsHeap.HasParam, localsPresent, entry,
            VarInfo.lvalue?, auto, stored]
      | none =>
          by_cases known : Names (globalNames p.ast) (some name) <;>
            simp [HsHeap.Resolves, Parser.Outer, HsHeap.HasParam, localsPresent, globalsPresent,
              entry, names, known, globalInfo, VarInfo.lvalue?]

/-- The generator accepts the program that the parser has built if every name resolves. -/
theorem genIr_succeeds {tokens : List Token} {p : Parser} {module : String}
    (parsed : parser (initParser tokens) = .ok () p) :
    Succeeds (genIr module p.ast) (initIr p) ↔ p.ProgramScoped := by
  obtain ⟨_, declared, built⟩ := parser_tables parsed
  have started : addIrTop (.module module) (initIr p) =
      .ok () { initIr p with irTail := [.module module] } := rfl
  rw [genIr, succeeds_after started,
    genIrLoop_succeeds (by exact built) (Nat.lt_succ_self p.globalTable)]
  refine forall₅_congr fun name paramsTab lableTab params body => forall_congr' fun member =>
    exists₂_congr fun scopeN inner => and_congr_right fun braced => ?_
  subst braced
  obtain ⟨_, _, -, function⟩ := built.function_built member
  have params_in : p.heap.ParamsIn paramsTab params := function.paramsTab_eq ▸ function.params_in
  have resolves : (initIr p).heap.Resolves [paramsTab, p.globalTable] = p.Outer paramsTab :=
    funext fun name => propext (outer_iff params_in declared name)
  rw [resolves]

end Functions

end Trident
