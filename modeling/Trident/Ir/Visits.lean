import Trident.Ir.Emitted
import Trident.Ir.Function
import Mathlib.Logic.Relation

/-! The visits of the generator to the parts of a function body: which part it
has come to, in which scope and context, and which blocks are open there. -/

set_option autoImplicit false

namespace Trident

open Foundation

/-- An open block: its statements, and those of them already visited. -/
structure Frame where
  body : List AstNode
  before : List AstNode

inductive VisitPart where
  | phrase (phrase : ScopePhrase)
  | expr (node : AstNode)

/-- A call of one of the functions of the generator. The open blocks, innermost
first, are no argument of it. -/
structure Visit where
  frames : List Frame
  scope : List Nat
  endLable : Nat
  part : VisitPart
  ir : Ir

/-- An accepted declaration gives a new temporary to the entry that is found. -/
theorem irAutoS_ok {name : CStr} {scope : List Nat} {ir final : Ir}
    (accepted : irAutoS name scope ir = .ok () final) :
    ∃ id info table stored, name = some stored ∧
      ir.heap.lookup scope name = some (id, info) ∧ ir.heap.sets id = some table ∧
      final = { ir.append [.operation (ir.tempC + 1) .alloc 0 0] (ir.tempC + 1) with
        heap := ir.heap.write id (table.put stored { info with tempDest := ir.tempC + 1 }) } := by
  obtain ⟨found, middle, looked, accepted⟩ := bind_eq_ok.mp accepted
  obtain ⟨rfl, rfl⟩ := lookupSymbol_ok looked
  cases found : middle.heap.lookup scope name with
  | none =>
      rw [found] at accepted
      exact absurd accepted irFatal_ne_ok
  | some entry =>
      obtain ⟨id, info⟩ := entry
      rw [found] at accepted
      change (emitOp .alloc 0 0 >>= setTempDest id name info) middle = _ at accepted
      rw [bind_run_of_ok (emitOp_run _ _ _ _)] at accepted
      obtain ⟨_, _, got, accepted⟩ := bind_eq_ok.mp accepted
      cases got
      cases present : middle.heap.sets id with
      | none => simp [present] at accepted
      | some table =>
          cases name with
          | none => simp [present] at accepted
          | some stored =>
              simp only [Ir.append_heap, present, modify_run, EStateM.Result.ok.injEq] at accepted
              exact ⟨id, info, table, stored, rfl, rfl, present, accepted.2.symm⟩

theorem Ir.add_emits (ir : Ir) {node : IrNode} (valid : node.Valid) : ir.Emits (ir.add [node]) :=
  Emits.append (Nat.le_refl _) (List.forall_mem_singleton.mpr valid)

theorem Ir.label_emits (ir : Ir) (count : Nat) : ir.Emits (ir.label count) := Emits.same rfl rfl

theorem Ir.Emits.trans {first second third : Ir} (left : first.Emits second)
    (right : second.Emits third) : first.Emits third := IsTrans.trans _ _ _ left right

theorem Ir.add_label_emits (ir : Ir) (id : Nat) : ir.Emits (ir.add [.label id]) :=
  ir.add_emits trivial

/-- The nodes before the body of an `if` or a `while`, and those after it. -/
theorem Ir.branch_emits (ir : Ir) (id idF t target : Nat) :
    ir.Emits ((ir.add [.branch id idF t]).add [.label target]) :=
  (ir.add_emits trivial : ir.Emits (ir.add [.branch id idF t])).trans (Ir.add_label_emits _ target)

theorem Ir.jump_emits (ir : Ir) (id target : Nat) :
    ir.Emits ((ir.add [.jump id]).add [.label target]) :=
  (ir.add_emits trivial : ir.Emits (ir.add [.jump id])).trans (Ir.add_label_emits _ target)

namespace Visit

/-- The computation that is called. -/
def action (v : Visit) : IrM Unit :=
  match v.part with
  | .phrase phrase => irPhrase v.endLable v.scope phrase
  | .expr node => discard (irExprF node v.scope)

def Ends (v : Visit) (final : Ir) : Prop := v.action v.ir = .ok () final

/-- The calls that a call makes. A call that comes after another one starts where
that one has ended. -/
inductive Next : Visit → Visit → Prop where
  | return_ {frames scope endLable node ir} :
      Next ⟨frames, scope, endLable, .phrase (.stmt (.return_ (some node))), ir⟩
        ⟨frames, scope, endLable, .expr node, ir⟩
  | expr {frames scope endLable node ir} :
      Next ⟨frames, scope, endLable, .phrase (.stmt (.expr node)), ir⟩
        ⟨frames, scope, endLable, .expr node, ir⟩
  | scope {frames scope endLable scopeN body ir} :
      Next ⟨frames, scope, endLable, .phrase (.stmt (.scope scopeN body)), ir⟩
        ⟨frames, scope, endLable, .phrase (.block scopeN body), ir⟩
  | if_ {frames scope endLable condition body chain scopeN inner ir} :
      body.scopeN? = some (scopeN, inner) →
      Next ⟨frames, scope, endLable, .phrase (.stmt (.if_ condition body chain)), ir⟩
        ⟨frames, scopeN.parent, ir.lableC + 1,
          .phrase (.chain (some (.elseIf condition body chain))), ir.label 1⟩
  | whileCondition {frames scope endLable condition body scopeN inner ir} :
      body.scopeN? = some (scopeN, inner) →
      Next ⟨frames, scope, endLable, .phrase (.stmt (.while_ condition body)), ir⟩
        ⟨frames, scopeN.parent, endLable, .expr condition,
          (ir.label 3).add [.label (ir.lableC + 1)]⟩
  | whileBody {frames scope endLable condition scopeN inner t} {ir ir' : Ir} :
      irExprF condition scopeN.parent ((ir.label 3).add [.label (ir.lableC + 1)]) = .ok t ir' →
      Next ⟨frames, scope, endLable, .phrase (.stmt (.while_ condition (.scope scopeN inner))), ir⟩
        ⟨frames, scopeN.parent, endLable, .phrase (.block scopeN inner),
          (ir'.add [.branch (ir.lableC + 2) (ir.lableC + 3) t]).add [.label (ir.lableC + 2)]⟩
  | first {frames scope endLable node nodes ir} :
      Next ⟨frames, scope, endLable, .phrase (.stmts (node :: nodes)), ir⟩
        ⟨frames, scope, endLable, .phrase (.stmt node), ir⟩
  | rest {frame frames scope endLable node nodes} {ir ir' : Ir} :
      irStatements node scope ir = .ok () ir' →
      Next ⟨frame :: frames, scope, endLable, .phrase (.stmts (node :: nodes)), ir⟩
        ⟨⟨frame.body, frame.before ++ [node]⟩ :: frames, scope, endLable,
          .phrase (.stmts nodes), ir'⟩
  | block {frames scope endLable scopeN body ir} :
      Next ⟨frames, scope, endLable, .phrase (.block scopeN body), ir⟩
        ⟨⟨body, []⟩ :: frames, scopeN.chain, endLable, .phrase (.stmts body), ir⟩
  | condition {frames scope endLable condition body chain} {ir : Ir} :
      Next ⟨frames, scope, endLable, .phrase (.chain (some (.elseIf condition body chain))), ir⟩
        ⟨frames, scope, endLable, .expr condition, ir.label 2⟩
  | body {frames scope endLable condition scopeN inner chain t} {ir ir' : Ir} :
      irExprF condition scope (ir.label 2) = .ok t ir' →
      Next ⟨frames, scope, endLable,
          .phrase (.chain (some (.elseIf condition (.scope scopeN inner) chain))), ir⟩
        ⟨frames, scope, endLable, .phrase (.block scopeN inner),
          (ir'.add [.branch (ir.lableC + 1) (ir.lableC + 2) t]).add [.label (ir.lableC + 1)]⟩
  | chain {frames scope endLable condition body chain t} {ir ir' ir'' : Ir} :
      irExprF condition scope (ir.label 2) = .ok t ir' →
      irBody body ((ir'.add [.branch (ir.lableC + 1) (ir.lableC + 2) t]).add
        [.label (ir.lableC + 1)]) = .ok () ir'' →
      Next ⟨frames, scope, endLable, .phrase (.chain (some (.elseIf condition body chain))), ir⟩
        ⟨frames, scope, endLable, .phrase (.chain chain),
          (ir''.add [.jump endLable]).add [.label (ir.lableC + 2)]⟩
  | else_ {frames scope endLable scopeN body ir} :
      Next ⟨frames, scope, endLable, .phrase (.chain (some (.else_ scopeN body))), ir⟩
        ⟨frames, scope, endLable, .phrase (.block scopeN body), ir⟩

variable {v w : Visit} {final : Ir}

/-- The calls inside an accepted call are accepted, and what they append stays. -/
theorem Next.ends (next : Next v w) (ended : v.Ends final) :
    ∃ middle, w.Ends middle ∧ middle.Emits final := by
  unfold Ends action at ended
  cases next with
  | return_ =>
      obtain ⟨t, middle, lowered, added⟩ := bind_eq_ok.mp ended
      cases added
      exact ⟨middle, discard_eq_ok.mpr ⟨t, lowered⟩, middle.add_emits trivial⟩
  | expr => exact ⟨final, ended, Std.Refl.refl _⟩
  | scope => exact ⟨final, ended, Std.Refl.refl _⟩
  | if_ member =>
      obtain ⟨scope, _, parent, ended⟩ := bind_eq_ok.mp ended
      rw [bodyParent, member] at parent
      cases parent
      obtain ⟨_, _, counted, ended⟩ := bind_eq_ok.mp ended
      cases counted
      obtain ⟨_, middle, chained, added⟩ := bind_eq_ok.mp ended
      cases added
      exact ⟨middle, chained, middle.add_emits trivial⟩
  | @whileCondition frames scope endLable condition body scopeN inner ir member =>
      obtain ⟨scope, _, parent, ended⟩ := bind_eq_ok.mp ended
      rw [bodyParent, member] at parent
      cases parent
      obtain ⟨t, ir', ir'', lowered, bodyRun, rfl⟩ := irWhileWith_ok ended
      refine ⟨ir', discard_eq_ok.mpr ⟨t, lowered⟩, ?_⟩
      exact (ir'.branch_emits _ _ _ _).trans
        (((Emits.closed.rules.irBody body).of_ok bodyRun).trans (ir''.jump_emits _ _))
  | whileBody lowered =>
      obtain ⟨scope, _, parent, ended⟩ := bind_eq_ok.mp ended
      cases parent
      obtain ⟨t, ir', ir'', lowered', bodyRun, rfl⟩ := irWhileWith_ok ended
      cases lowered.symm.trans lowered'
      exact ⟨ir'', bodyRun, ir''.jump_emits _ _⟩
  | first =>
      obtain ⟨_, middle, visited, rest⟩ := bind_eq_ok.mp ended
      exact ⟨middle, visited, (Emits.closed.rules.irScopeBody _ _).of_ok rest⟩
  | rest visited =>
      obtain ⟨_, middle, visited', rest⟩ := bind_eq_ok.mp ended
      cases visited.symm.trans visited'
      exact ⟨final, rest, Std.Refl.refl _⟩
  | block =>
      obtain ⟨_, middle, bodyRun, freed⟩ := bind_eq_ok.mp ended
      exact ⟨middle, bodyRun, (Emits.closed.rules.freeHashSet _).of_ok freed⟩
  | @condition frames scope endLable condition body chain ir =>
      obtain ⟨t, ir', ir'', lowered, bodyRun, chained⟩ := irIfWith_ok ended
      refine ⟨ir', discard_eq_ok.mpr ⟨t, lowered⟩, ?_⟩
      exact (ir'.branch_emits _ _ _ _).trans (((Emits.closed.rules.irBody body).of_ok bodyRun).trans
        ((ir''.jump_emits _ _).trans ((Emits.closed.rules.irChain _ _ _).of_ok chained)))
  | body lowered =>
      obtain ⟨t, ir', ir'', lowered', bodyRun, chained⟩ := irIfWith_ok ended
      cases lowered.symm.trans lowered'
      exact ⟨ir'', bodyRun,
        (ir''.jump_emits _ _).trans ((Emits.closed.rules.irChain _ _ _).of_ok chained)⟩
  | chain lowered bodyRun =>
      obtain ⟨t, ir', ir'', lowered', bodyRun', chained⟩ := irIfWith_ok ended
      cases lowered.symm.trans lowered'
      cases bodyRun.symm.trans bodyRun'
      exact ⟨final, chained, Std.Refl.refl _⟩
  | else_ => exact ⟨final, ended, Std.Refl.refl _⟩

theorem Next.starts (next : Next v w) : v.ir.Emits w.ir := by
  cases next with
  | return_ | expr | scope | first | block | else_ => exact Std.Refl.refl _
  | if_ => exact Ir.label_emits _ _
  | condition => exact Ir.label_emits _ _
  | whileCondition => exact (Ir.label_emits _ _).trans (Ir.add_label_emits _ _)
  | whileBody lowered =>
      exact ((Ir.label_emits _ _).trans (Ir.add_label_emits _ _)).trans
        (((Emits.closed.rules.irExprF _ _).of_ok lowered).trans (Ir.branch_emits _ _ _ _ _))
  | rest visited => exact (Emits.closed.rules.irStatements _ _).of_ok visited
  | body lowered =>
      exact (Ir.label_emits _ _).trans
        (((Emits.closed.rules.irExprF _ _).of_ok lowered).trans (Ir.branch_emits _ _ _ _ _))
  | chain lowered bodyRun =>
      exact (Ir.label_emits _ _).trans (((Emits.closed.rules.irExprF _ _).of_ok lowered).trans
        ((Ir.branch_emits _ _ _ _ _).trans (((Emits.closed.rules.irBody _).of_ok bodyRun).trans
          (Ir.jump_emits _ _ _))))

/-- One call has ended when the other one starts. -/
def Before (v w : Visit) : Prop := ∃ final, v.Ends final ∧ final.Emits w.ir

/-- The calls that one call makes come one after the other. -/
theorem Next.ordered {w' : Visit} (next : Next v w) (next' : Next v w') :
    w = w' ∨ w.Before w' ∨ w'.Before w := by
  cases next with
  | return_ | expr | scope | block | else_ =>
      cases next'
      exact .inl rfl
  | if_ member =>
      cases next' with
      | if_ member' =>
          cases member.symm.trans member'
          exact .inl rfl
  | whileCondition member =>
      cases next' with
      | whileCondition member' =>
          cases member.symm.trans member'
          exact .inl rfl
      | whileBody lowered =>
          cases member
          exact .inr (.inl ⟨_, discard_eq_ok.mpr ⟨_, lowered⟩, Ir.branch_emits _ _ _ _ _⟩)
  | whileBody lowered =>
      cases next' with
      | whileCondition member =>
          cases member
          exact .inr (.inr ⟨_, discard_eq_ok.mpr ⟨_, lowered⟩, Ir.branch_emits _ _ _ _ _⟩)
      | whileBody lowered' =>
          cases lowered.symm.trans lowered'
          exact .inl rfl
  | first =>
      cases next' with
      | first => exact .inl rfl
      | rest visited => exact .inr (.inl ⟨_, visited, Std.Refl.refl _⟩)
  | rest visited =>
      cases next' with
      | first => exact .inr (.inr ⟨_, visited, Std.Refl.refl _⟩)
      | rest visited' =>
          cases visited.symm.trans visited'
          exact .inl rfl
  | condition =>
      cases next' with
      | condition => exact .inl rfl
      | body lowered =>
          exact .inr (.inl ⟨_, discard_eq_ok.mpr ⟨_, lowered⟩, Ir.branch_emits _ _ _ _ _⟩)
      | chain lowered bodyRun =>
          exact .inr (.inl ⟨_, discard_eq_ok.mpr ⟨_, lowered⟩,
            (Ir.branch_emits _ _ _ _ _).trans (((Emits.closed.rules.irBody _).of_ok bodyRun).trans
              (Ir.jump_emits _ _ _))⟩)
  | body lowered =>
      cases next' with
      | condition =>
          exact .inr (.inr ⟨_, discard_eq_ok.mpr ⟨_, lowered⟩, Ir.branch_emits _ _ _ _ _⟩)
      | body lowered' =>
          cases lowered.symm.trans lowered'
          exact .inl rfl
      | chain lowered' bodyRun =>
          cases lowered.symm.trans lowered'
          exact .inr (.inl ⟨_, bodyRun, Ir.jump_emits _ _ _⟩)
  | chain lowered bodyRun =>
      cases next' with
      | condition =>
          exact .inr (.inr ⟨_, discard_eq_ok.mpr ⟨_, lowered⟩,
            (Ir.branch_emits _ _ _ _ _).trans (((Emits.closed.rules.irBody _).of_ok bodyRun).trans
              (Ir.jump_emits _ _ _))⟩)
      | body lowered' =>
          cases lowered.symm.trans lowered'
          exact .inr (.inr ⟨_, bodyRun, Ir.jump_emits _ _ _⟩)
      | chain lowered' bodyRun' =>
          cases lowered.symm.trans lowered'
          cases bodyRun.symm.trans bodyRun'
          exact .inl rfl

/-- The calls made in a call, at any depth. -/
def Reaches : Visit → Visit → Prop := Relation.ReflTransGen Next

theorem Reaches.ends (reaches : Reaches v w) (ended : v.Ends final) :
    ∃ middle, w.Ends middle ∧ middle.Emits final := by
  induction reaches with
  | refl => exact ⟨final, ended, Std.Refl.refl _⟩
  | tail _ next ih =>
      obtain ⟨middle, ended, later⟩ := ih
      obtain ⟨first, ended', later'⟩ := next.ends ended
      exact ⟨first, ended', later'.trans later⟩

theorem Reaches.starts (reaches : Reaches v w) : v.ir.Emits w.ir := by
  induction reaches with
  | refl => exact Std.Refl.refl _
  | tail _ next ih => exact ih.trans next.starts

/-- A declaration makes no further calls. -/
theorem Reaches.of_auto {name : CStr} {size : Nat}
    (part : v.part = .phrase (.stmt (.auto name size))) (reaches : Reaches v w) : w = v := by
  rcases Relation.ReflTransGen.cases_head reaches with rfl | ⟨middle, next, _⟩
  · rfl
  · cases next <;> cases part

theorem Before.inside {v' w' : Visit} (before : v.Before w) (left : Reaches v v')
    (right : Reaches w w') : v'.Before w' := by
  obtain ⟨final, ended, later⟩ := before
  obtain ⟨middle, ended', later'⟩ := left.ends ended
  exact ⟨middle, ended', (later'.trans later).trans right.starts⟩

/-- Of two calls in a run, one is made inside the other one or after it. -/
theorem Reaches.linear {start : Visit} (left : Reaches start v) (right : Reaches start w) :
    Reaches v w ∨ Reaches w v ∨ v.Before w ∨ w.Before v := by
  induction left using Relation.ReflTransGen.head_induction_on with
  | refl => exact .inl right
  | head next left ih =>
      rcases Relation.ReflTransGen.cases_head right with rfl | ⟨middle, next', right⟩
      · exact .inr (.inl (.head next left))
      · rcases next.ordered next' with rfl | before | before
        · exact ih right
        · exact .inr (.inr (.inl (before.inside left right)))
        · exact .inr (.inr (.inr (before.inside right left)))

end Visit

/-- The call on the body of a function that starts in the context `ir`. -/
def Visit.ofBody (ir : Ir) (paramsTab globalTable lableTab params : Nat) (scopeN : AstScope)
    (body : List AstNode) : Visit where
  frames := []
  scope := [paramsTab, globalTable]
  endLable := 0
  part := .phrase (.block scopeN body)
  ir := ir.atBody lableTab params

namespace FunctionRun

variable (run : FunctionRun)

/-- The call on the body of a function. -/
def start : Visit where
  frames := []
  scope := [run.paramsTab, run.parser.globalTable]
  endLable := 0
  part := .phrase (.block run.scopeN run.body)
  ir := run.ir.atBody run.lableTab run.params

theorem start_ends : ∃ middle, run.start.Ends middle ∧ middle.nodes <+: run.nodes := by
  obtain ⟨_, _, entered, accepted⟩ := bind_eq_ok.mp run.accepted
  cases entered
  obtain ⟨_, _, counted, accepted⟩ := bind_eq_ok.mp accepted
  cases counted
  obtain ⟨_, _, added, accepted⟩ := bind_eq_ok.mp accepted
  cases added
  obtain ⟨_, _, entered, accepted⟩ := bind_eq_ok.mp accepted
  rw [irParams_run] at entered
  cases entered
  obtain ⟨_, middle, bodyRun, accepted⟩ := bind_eq_ok.mp accepted
  obtain ⟨emits, made⟩ := Emits.closed.functionEnd accepted
  injection made with _ _ nodes
  exact ⟨middle, bodyRun, nodes ▸ emits.isPrefix⟩

/-- A call made for the body is accepted, and its nodes are among those of the function. -/
theorem reaches_ends {v : Visit} (reached : run.start.Reaches v) :
    ∃ middle, v.Ends middle ∧ middle.nodes <+: run.nodes := by
  obtain ⟨final, ended, kept⟩ := run.start_ends
  obtain ⟨middle, ended, later⟩ := reached.ends ended
  exact ⟨middle, ended, later.isPrefix.trans kept⟩

/-- After a statement of a block the generator comes to those behind it. -/
theorem reaches_rest {frame : Frame} {frames : List Frame}
    {scope : List Nat} {endLable : Nat} {node : AstNode} {nodes : List AstNode} {ir : Ir}
    (reached : run.start.Reaches
      ⟨frame :: frames, scope, endLable, .phrase (.stmts (node :: nodes)), ir⟩) :
    ∃ ir', irStatements node scope ir = .ok () ir' ∧ run.start.Reaches
      ⟨⟨frame.body, frame.before ++ [node]⟩ :: frames, scope, endLable, .phrase (.stmts nodes), ir'⟩ := by
  obtain ⟨ir', ended, -⟩ := run.reaches_ends (reached.tail .first)
  exact ⟨ir', ended, reached.tail (.rest ended)⟩

end FunctionRun

end Trident
