import Trident.Foundation.Guarded
import Trident.Ir.Function

/-! The ways the generator ends early on trees that the parser builds: with a
diagnostic, or at a missing name. Hash sets are alive whenever they are used, and
freed once. -/

set_option autoImplicit false

namespace Trident

open Foundation

/-! As long as its symbol tables are there, no function of the generator touches a freed one. -/

/-- The run ends with a diagnostic, or where the tree has a null pointer for a name. -/
def Stop.Expected (stop : Stop) : Prop := stop = .exit ∨ stop = .fault .nullName

/-- The sets that are alive, and the label table of the function. -/
structure Ir.Alive (lableTab : Nat) (ids : Nat → Prop) (ir : Ir) : Prop where
  lableTab_eq : ir.tLableTab = lableTab
  alive : ∀ id, ids id → (ir.heap.sets id).isSome

theorem Ir.Alive.mono {lableTab : Nat} {ids ids' : Nat → Prop} {ir : Ir}
    (alive : ir.Alive lableTab ids) (fewer : ∀ id, ids' id → ids id) : ir.Alive lableTab ids' :=
  ⟨alive.lableTab_eq, fun id member => alive.alive id (fewer id member)⟩

section

variable {lableTab : Nat} {ids : Nat → Prop}

/-- A computation that fails only as expected, and keeps the sets that are alive. -/
abbrev Sound {α : Type} (lableTab : Nat) (ids : Nat → Prop) (action : IrM α) : Prop :=
  Guarded Stop.Expected (Ir.Alive lableTab ids) action fun _ => Ir.Alive lableTab ids

namespace Sound

theorem pure {α : Type} (value : α) : Sound lableTab ids (pure value) :=
  Guarded.pure fun _ alive => alive

theorem irFatal {α : Type} (diag : Diag) : Sound lableTab ids (irFatal diag : IrM α) :=
  fun _ _ => .inl rfl

theorem addIrNode (node : IrNode) : Sound lableTab ids (addIrNode node) :=
  .modify fun _ alive => ⟨alive.lableTab_eq, alive.alive⟩

theorem newTemp : Sound lableTab ids newTemp :=
  .modifyGet fun _ alive => ⟨alive.lableTab_eq, alive.alive⟩

theorem newLable : Sound lableTab ids newLable :=
  .modifyGet fun _ alive => ⟨alive.lableTab_eq, alive.alive⟩

/-- A new temporary and the node that writes it. -/
theorem fresh (node : Nat → IrNode) :
    Sound lableTab ids (do let t ← Trident.newTemp; Trident.addIrNode (node t); return t) :=
  .bind newTemp fun _ => .bind (addIrNode _) fun _ => pure _

theorem emitOp (op : IrOp) (a b : Nat) : Sound lableTab ids (emitOp op a b) := fresh _

theorem emitConst (kind : IrOp) (value : Nat) : Sound lableTab ids (emitConst kind value) := fresh _

theorem emmitCall (name : CStr) (args : List Nat) : Sound lableTab ids (emmitCall name args) :=
  fresh fun t => .call t name args

/-- What is found has a name. -/
theorem readHashSet_found {id : Nat} (member : ids id) (name : CStr) :
    Guarded Stop.Expected (Ir.Alive lableTab ids) (readHashSet id name)
      fun found ir => ir.Alive lableTab ids ∧ ∀ info, found = some info → name.isSome := by
  refine .get fun ir alive => ?_
  obtain ⟨table, present⟩ := Option.isSome_iff_exists.mp (alive.alive id member)
  rw [present]
  cases name with
  | none => exact .throw (.inr rfl)
  | some name =>
      refine Guarded.pure fun _ same => ⟨?_, fun _ _ => rfl⟩
      rw [same]
      exact alive

theorem setTempDest {id : Nat} (member : ids id) {name : CStr} (given : name.isSome)
    (info : VarInfo) (temp : Nat) : Sound lableTab ids (setTempDest id name info temp) := by
  refine .get fun ir alive => ?_
  obtain ⟨table, present⟩ := Option.isSome_iff_exists.mp (alive.alive id member)
  obtain ⟨name, rfl⟩ := Option.isSome_iff_exists.mp given
  rw [present]
  refine .modify fun _ same => ⟨?_, fun other member' => ?_⟩
  · rw [same]
    exact alive.lableTab_eq
  · rw [same]
    by_cases written : other = id
    · rw [written, HsHeap.write_self]
      rfl
    · rw [HsHeap.write_of_ne _ _ written]
      exact alive.alive other member'

theorem freeHashSet {id : Nat} (member : ids id) :
    Guarded Stop.Expected (Ir.Alive lableTab ids) (freeHashSet id)
      fun _ => Ir.Alive lableTab fun other => ids other ∧ other ≠ id := by
  refine .get fun ir alive => ?_
  obtain ⟨table, present⟩ := Option.isSome_iff_exists.mp (alive.alive id member)
  rw [present]
  refine .modify fun _ same => ⟨?_, fun other ⟨member', different⟩ => ?_⟩
  · rw [same]
    exact alive.lableTab_eq
  · rw [same, HsHeap.free_of_ne _ different]
    exact alive.alive other member'

/-- The set in which an entry is found is one of the scope. -/
theorem lookupSymbol_found {scope : List Nat} (members : ∀ id ∈ scope, ids id) (name : CStr) :
    Guarded Stop.Expected (Ir.Alive lableTab ids) (Trident.lookupSymbol scope name)
      fun found ir => ir.Alive lableTab ids ∧
        ∀ entry, found = some entry → ids entry.1 ∧ name.isSome := by
  induction scope with
  | nil => exact Guarded.pure fun _ alive => ⟨alive, nofun⟩
  | cons id parent ih =>
      have member := members id List.mem_cons_self
      refine .bind (readHashSet_found member name) fun found => ?_
      cases found with
      | some info =>
          refine Guarded.pure fun _ ⟨alive, given⟩ => ⟨alive, fun entry same => ?_⟩
          cases same
          exact ⟨member, given info rfl⟩
      | none =>
          exact (ih fun id member => members id (List.mem_cons_of_mem _ member)).mono
            (fun _ read => read.1) fun _ _ looked => looked

theorem lookupSymbol {scope : List Nat} (members : ∀ id ∈ scope, ids id) (name : CStr) :
    Sound lableTab ids (lookupSymbol scope name) :=
  (lookupSymbol_found members name).mono (fun _ alive => alive) fun _ _ found => found.1

theorem lookupOrDie {scope : List Nat} (members : ∀ id ∈ scope, ids id) (name : CStr) :
    Sound lableTab ids (lookupOrDie scope name) := by
  refine .bind (lookupSymbol members name) fun found => ?_
  cases found with
  | some entry => exact pure _
  | none => exact irFatal _

theorem irLoadLvalue (lv : LValue) : Sound lableTab ids (irLoadLvalue lv) := by
  cases lv <;> exact fresh _

theorem irAddrOfLvalue (lv : LValue) : Sound lableTab ids (irAddrOfLvalue lv) := by
  cases lv <;> exact fresh _

theorem irStoreLvalue (value : Nat) (lv : LValue) : Sound lableTab ids (irStoreLvalue value lv) := by
  cases lv <;> exact addIrNode _

section

variable {scope : List Nat} (members : ∀ id ∈ scope, ids id)

include members

theorem irIdentifier (name : CStr) : Sound lableTab ids (irIdentifier scope name) := by
  refine .bind (lookupOrDie members name) fun var => ?_
  split
  · split
    · exact irFatal _
    · exact emitOp _ _ _
  · split
    · exact fresh _
    · exact irFatal _

theorem irIdentLvalue (name : CStr) : Sound lableTab ids (irIdentLvalue scope name) := by
  refine .bind (lookupOrDie members name) fun var => ?_
  split
  · split
    · exact irFatal _
    · exact pure _
  · split
    · exact pure _
    · exact irFatal _

end

mutual

theorem irExprF (node : AstNode) {scope : List Nat} (members : ∀ id ∈ scope, ids id) :
    Sound lableTab ids (irExprF node scope) := by
  cases node with
  | atom kind value n =>
      cases kind
      case int => exact emitConst _ _
      case string => exact emitConst _ _
      case identifier => exact irIdentifier members _
      all_goals exact irFatal _
  | unary op operand =>
      cases op
      case bitAnd => exact .bind (irLvalue operand members) fun _ => irAddrOfLvalue _
      case mul => exact .bind (irExprF operand members) fun _ => emitOp _ _ _
      case sub => exact .bind (irExprF operand members) fun _ => emitOp _ _ _
      case not =>
        exact .bind (irExprF operand members) fun _ => .bind (emitConst _ _) fun _ => emitOp _ _ _
      case inc =>
        exact .bind (irLvalue operand members) fun _ => .bind (irLoadLvalue _) fun _ =>
          .bind (emitConst _ _) fun _ => .bind (emitOp _ _ _) fun _ =>
          .bind (irStoreLvalue _ _) fun _ => pure _
      case dec =>
        exact .bind (irLvalue operand members) fun _ => .bind (irLoadLvalue _) fun _ =>
          .bind (emitConst _ _) fun _ => .bind (emitOp _ _ _) fun _ =>
          .bind (irStoreLvalue _ _) fun _ => pure _
      all_goals exact irFatal _
  | binary left op right =>
      rw [Trident.irExprF]
      split
      · exact .bind (irExprF right members) fun _ => .bind (irLvalue left members) fun _ =>
          .bind (irStoreLvalue _ _) fun _ => pure _
      · split
        · exact irFatal _
        · exact .bind (irExprF left members) fun _ => .bind (irExprF right members) fun _ =>
            emitOp _ _ _
  | functionCall name args => exact .bind (irArgs args members) fun _ => emmitCall _ _
  | _ => exact irFatal _

theorem irLvalue (node : AstNode) {scope : List Nat} (members : ∀ id ∈ scope, ids id) :
    Sound lableTab ids (irLvalue node scope) := by
  cases node with
  | atom kind value n =>
      rw [Trident.irLvalue]
      split
      · exact irIdentLvalue members _
      · exact irFatal _
  | unary op operand =>
      rw [Trident.irLvalue]
      split
      · exact .bind (irExprF operand members) fun _ => pure _
      · exact irFatal _
  | _ => exact irFatal _

theorem irArgs (nodes : List AstNode) {scope : List Nat} (members : ∀ id ∈ scope, ids id) :
    Sound lableTab ids (irArgs nodes scope) := by
  cases nodes with
  | nil => exact pure _
  | cons node nodes =>
      exact .bind (irExprF node members) fun _ => .bind (irArgs nodes members) fun _ => pure _

end

theorem irAutoS {scope : List Nat} (members : ∀ id ∈ scope, ids id) (name : CStr) :
    Sound lableTab ids (irAutoS name scope) := by
  refine .bind (lookupSymbol_found members name) fun found => ?_
  cases found with
  | none => exact fun _ _ => .inl rfl
  | some entry =>
      intro ir ⟨alive, known⟩
      obtain ⟨member, given⟩ := known entry rfl
      exact Guarded.bind (emitOp .alloc 0 0) (fun t => setTempDest member given entry.2 t) ir alive

theorem irNamedLable (member : ids lableTab) (name : CStr) :
    Sound lableTab ids (irNamedLable name) := by
  refine .get fun ir alive => ?_
  rw [alive.lableTab_eq]
  refine .bind ((readHashSet_found member name).mono (fun _ same => same ▸ alive)
    fun _ _ read => read) fun found => ?_
  cases found with
  | none => exact fun _ _ => .inl rfl
  | some info =>
      intro ir ⟨alive, given⟩
      have numbered : Sound lableTab ids (do
          if info.tempDest = 0 then
            let id ← Trident.newLable
            Trident.setTempDest lableTab name info id
            return id
          else
            return info.tempDest : IrM Nat) := by
        split
        · exact .bind newLable fun _ => .bind (setTempDest member (given info rfl) info _) fun _ =>
            pure _
        · exact pure _
      exact numbered ir alive

theorem irParams (params i : Nat) : Sound lableTab ids (irParams params i) := by
  induction params generalizing i with
  | zero => exact pure _
  | succ params ih =>
      exact .bind (emitOp _ _ _) fun _ => .bind (addIrNode _) fun _ => .bind (addIrNode _) fun _ =>
        ih (i + 1)

end Sound

/-! A block frees its own table when it is left, and no other. -/

/-- The sets that the code for a phrase uses are alive, those from `lo` up to `hi`
are its own. -/
structure Usable (lableTab : Nat) (ids : Nat → Prop) (scope : List Nat) (lo hi : Nat) : Prop where
  scope : ∀ id ∈ scope, ids id ∧ id < lo
  lables : ids lableTab ∧ lableTab < lo
  own : ∀ id : Nat, lo ≤ id → id < hi → ids id

/-- After the phrase its own sets have been freed. -/
def Frees (lableTab : Nat) (ids : Nat → Prop) (lo hi : Nat) (action : IrM Unit) : Prop :=
  Guarded Stop.Expected (Ir.Alive lableTab ids) action
    fun _ => Ir.Alive lableTab fun id => ids id ∧ (id < lo ∨ hi ≤ id)

theorem Sound.frees {lo : Nat} {action : IrM Unit} (sound : Sound lableTab ids action) :
    Frees lableTab ids lo lo action :=
  sound.mono (fun _ alive => alive) fun _ _ alive => alive.mono fun _ member => member.1

theorem Usable.rest {scope : List Nat} {lo mid hi : Nat}
    (usable : Usable lableTab ids scope lo hi) (low : lo ≤ mid) :
    Usable lableTab (fun id => ids id ∧ (id < lo ∨ mid ≤ id)) scope mid hi where
  scope id member := by
    obtain ⟨alive, less⟩ := usable.scope id member
    exact ⟨⟨alive, .inl less⟩, Nat.lt_of_lt_of_le less low⟩
  lables := by
    obtain ⟨alive, less⟩ := usable.lables
    exact ⟨⟨alive, .inl less⟩, Nat.lt_of_lt_of_le less low⟩
  own id lower upper := ⟨usable.own id (Nat.le_trans low lower) upper, .inr lower⟩

theorem Usable.first {scope : List Nat} {lo mid hi : Nat}
    (usable : Usable lableTab ids scope lo hi) (high : mid ≤ hi) :
    Usable lableTab ids scope lo mid :=
  ⟨usable.scope, usable.lables, fun id lower upper =>
    usable.own id lower (Nat.lt_of_lt_of_le upper high)⟩

/-- In a block its own set is one of the scope. -/
theorem Usable.inner {scope : List Nat} {lo hi : Nat} (usable : Usable lableTab ids scope lo hi)
    (own : lo < hi) : Usable lableTab ids (lo :: scope) (lo + 1) hi where
  scope id member := by
    rcases List.mem_cons.mp member with rfl | outer
    · exact ⟨usable.own id (Nat.le_refl id) own, Nat.lt_succ_self id⟩
    · obtain ⟨alive, less⟩ := usable.scope id outer
      exact ⟨alive, Nat.lt_succ_of_lt less⟩
  lables := ⟨usable.lables.1, Nat.lt_succ_of_lt usable.lables.2⟩
  own id lower := usable.own id (Nat.le_of_succ_le lower)

theorem Frees.later {lo mid hi : Nat} {action : IrM Unit}
    (frees : Frees lableTab (fun id => ids id ∧ (id < lo ∨ mid ≤ id)) mid hi action)
    (low : lo ≤ mid) (high : mid ≤ hi) :
    Guarded Stop.Expected (Ir.Alive lableTab fun id => ids id ∧ (id < lo ∨ mid ≤ id)) action
      fun _ => Ir.Alive lableTab fun id => ids id ∧ (id < lo ∨ hi ≤ id) :=
  frees.mono (fun _ alive => alive) fun _ _ alive =>
    alive.mono fun id ⟨member, outside⟩ => ⟨⟨member, by omega⟩, by omega⟩

private theorem irIfWith_frees {scope : List Nat} {lo mid hi endLabelId : Nat} {condition : AstNode}
    {body chain : IrM Unit} (usable : Usable lableTab ids scope lo hi)
    (bodyFrees : Frees lableTab ids lo mid body)
    (chainFrees : Guarded Stop.Expected
      (Ir.Alive lableTab fun id => ids id ∧ (id < lo ∨ mid ≤ id)) chain
      fun _ => Ir.Alive lableTab fun id => ids id ∧ (id < lo ∨ hi ≤ id)) :
    Frees lableTab ids lo hi (irIfWith condition scope endLabelId body chain) :=
  .bind Sound.newLable fun _ => .bind Sound.newLable fun _ =>
    .bind (Sound.irExprF condition fun id member => (usable.scope id member).1) fun _ =>
    .bind (Sound.addIrNode _) fun _ => .bind (Sound.addIrNode _) fun _ =>
    .bind bodyFrees fun _ => .bind (Sound.addIrNode _) fun _ => .bind (Sound.addIrNode _) fun _ =>
    chainFrees

private theorem irWhileWith_frees {scope : List Nat} {lo hi : Nat} {condition : AstNode}
    {body : IrM Unit} (usable : Usable lableTab ids scope lo hi)
    (bodyFrees : Frees lableTab ids lo hi body) :
    Frees lableTab ids lo hi (irWhileWith condition scope body) :=
  .bind Sound.newLable fun _ => .bind Sound.newLable fun _ => .bind Sound.newLable fun _ =>
    .bind (Sound.addIrNode _) fun _ =>
    .bind (Sound.irExprF condition fun id member => (usable.scope id member).1) fun _ =>
    .bind (Sound.addIrNode _) fun _ => .bind (Sound.addIrNode _) fun _ =>
    .bind bodyFrees fun _ => .bind (Sound.addIrNode _) fun _ => Sound.addIrNode _

private theorem built_frees {heap : HsHeap} {phrase : ScopePhrase} {scope : List Nat} {lo hi : Nat}
    (built : Built heap phrase scope lo hi) :
    ∀ {ids} (endLable : Nat), Usable lableTab ids scope lo hi →
      Frees lableTab ids lo hi (irPhrase endLable scope phrase) := by
  induction built with
  | return_ =>
      intro ids endLable usable
      have members := fun id member => (usable.scope id member).1
      exact Sound.frees (.bind (Sound.irExprF _ members) fun _ => Sound.addIrNode _)
  | expr =>
      intro ids endLable usable
      have members := fun id member => (usable.scope id member).1
      exact Sound.frees (Guarded.discard (Sound.irExprF _ members))
  | goto =>
      intro ids endLable usable
      exact Sound.frees (.bind (Sound.irNamedLable usable.lables.1 _) fun _ => Sound.addIrNode _)
  | lable =>
      intro ids endLable usable
      exact Sound.frees (.bind (Sound.irNamedLable usable.lables.1 _) fun _ => Sound.addIrNode _)
  | extrn =>
      intro ids endLable usable
      exact Sound.frees (Guarded.modify fun _ alive => ⟨alive.lableTab_eq, alive.alive⟩)
  | auto =>
      intro ids endLable usable
      exact Sound.frees (Sound.irAutoS (fun id member => (usable.scope id member).1) _)
  | scope block ih =>
      intro ids endLable usable
      exact ih endLable usable
  | @if_ condition scopeN body chain scope lo mid hi block rest blockIH chainIH =>
      intro ids endLable usable
      obtain ⟨rfl⟩ := block.scopeN_eq
      have chained : Frees lableTab ids lo hi (do
          let endLabelId ← newLable
          irIfWith condition scope endLabelId (irBody (.scope ⟨lo, scope⟩ body))
            (irChain chain scope endLabelId)
          addIrNode (.label endLabelId)) :=
        .bind Sound.newLable fun endLabelId =>
          .bind (irIfWith_frees usable (blockIH endLabelId (usable.first rest.le))
            ((chainIH endLabelId (usable.rest block.le)).later block.le rest.le)) fun _ =>
          Sound.addIrNode _
      exact chained
  | while_ block ih =>
      intro ids endLable usable
      obtain ⟨rfl⟩ := block.scopeN_eq
      exact irWhileWith_frees usable (ih endLable usable)
  | nil =>
      intro ids endLable usable
      exact Sound.frees (Sound.pure _)
  | cons first rest firstIH restIH =>
      intro ids endLable usable
      exact .bind (firstIH endLable (usable.first rest.le)) fun _ =>
        (restIH endLable (usable.rest first.le)).later first.le rest.le
  | block declares inner ih =>
      intro ids endLable usable
      have high := inner.le
      refine .bind (ih endLable (usable.inner high)) fun _ => ?_
      refine (Sound.freeHashSet ⟨usable.own _ (Nat.le_refl _) high, .inl (Nat.lt_succ_self _)⟩).mono
        (fun _ alive => alive) fun _ _ alive => alive.mono ?_
      rintro id ⟨member, outside⟩
      dsimp only
      exact ⟨⟨member, by omega⟩, by omega⟩
  | noChain =>
      intro ids endLable usable
      exact Sound.frees (Sound.pure _)
  | elseIf block rest blockIH chainIH =>
      intro ids endLable usable
      exact irIfWith_frees usable (blockIH endLable (usable.first rest.le))
        ((chainIH endLable (usable.rest block.le)).later block.le rest.le)
  | else_ block ih =>
      intro ids endLable usable
      exact ih endLable usable

end

theorem Built.alive {heap : HsHeap} {phrase : ScopePhrase} {scope : List Nat} {lo hi : Nat}
    (built : Built heap phrase scope lo hi) :
    ∀ id : Nat, lo ≤ id → id < hi → (heap.sets id).isSome := by
  induction built with
  | return_ | expr | goto | lable | extrn | auto | nil | noChain =>
      exact fun id lower upper => absurd upper (Nat.not_lt_of_le lower)
  | scope _ ih | while_ _ ih | else_ _ ih => exact ih
  | @if_ _ _ _ _ _ _ mid _ _ _ firstIH restIH | @cons _ _ _ _ mid _ _ _ firstIH restIH
  | @elseIf _ _ _ _ _ _ mid _ _ _ firstIH restIH =>
      intro id lower upper
      rcases Nat.lt_or_ge id mid with early | late
      · exact firstIH id lower early
      · exact restIH id late upper
  | block declares inner ih =>
      intro id lower upper
      rcases Nat.eq_or_lt_of_le lower with rfl | later
      · obtain ⟨table, present, _⟩ := declares
        rw [present]
        rfl
      · exact ih id later upper

/-! Functions and the whole run. -/

/-- A function with a braced body ends early only as expected. -/
private theorem irFunctionS_expected {ir final : Ir} {name : CStr}
    {globalTable paramsTab lableTab params lo hi : Nat} {scopeN : AstScope} {body : List AstNode}
    {stop : Stop}
    (built : FunctionBuilt ir.heap globalTable paramsTab lableTab params scopeN body lo hi)
    (global : globalTable < lo) (present : (ir.heap.sets globalTable).isSome)
    (rejected : irFunctionS (.function name paramsTab lableTab params (.scope scopeN body)) ir =
      .error stop final) : stop.Expected := by
  obtain ⟨rfl, rfl, params_in, lables_in, block⟩ := built
  let ids (id : Nat) : Prop := id = globalTable ∨ paramsTab ≤ id ∧ id < hi
  have high := block.le
  have usable : Usable (paramsTab + 1) ids [paramsTab, globalTable] (paramsTab + 2) hi := by
    refine ⟨fun id member => ?_, ⟨.inr ⟨by omega, by omega⟩, by omega⟩, fun id lower upper =>
      .inr ⟨by omega, upper⟩⟩
    simp only [List.mem_cons, List.not_mem_nil, or_false] at member
    rcases member with rfl | rfl
    · exact ⟨.inr ⟨by omega, by omega⟩, by omega⟩
    · exact ⟨.inl rfl, by omega⟩
  have start : ∀ state, state = ir → Ir.Alive (paramsTab + 1) ids
      { state with tLableTab := paramsTab + 1, tempC := params, lableC := 0, nodes := [] } := by
    rintro _ rfl
    refine ⟨rfl, fun id member => ?_⟩
    rcases member with rfl | ⟨lower, upper⟩
    · exact present
    · rcases Nat.lt_or_ge id (paramsTab + 2) with early | late
      · rcases Nat.eq_or_lt_of_le lower with rfl | later
        · obtain ⟨table, stored, _⟩ := params_in
          exact Option.isSome_iff_exists.mpr ⟨table, stored⟩
        · obtain rfl : id = paramsTab + 1 := by omega
          obtain ⟨table, stored, _⟩ := lables_in
          exact Option.isSome_iff_exists.mpr ⟨table, stored⟩
      · exact block.alive id late upper
  let after (id : Nat) : Prop := ids id ∧ (id < paramsTab + 2 ∨ hi ≤ id)
  have ending : ∀ pre, (∀ state, pre state → state.Alive (paramsTab + 1) after) →
      Guarded Stop.Expected pre (do
        freeHashSet paramsTab
        freeHashSet (paramsTab + 1)
        return .function name params (← get).nodes : IrM IrTop) fun _ _ => True := by
    intro pre alive
    have first : after paramsTab := ⟨.inr ⟨by omega, by omega⟩, by omega⟩
    have second : after (paramsTab + 1) := ⟨.inr ⟨by omega, by omega⟩, by omega⟩
    exact .bind ((Sound.freeHashSet first).mono alive fun _ _ freed => freed) fun _ =>
      .bind (Sound.freeHashSet ⟨second, Nat.succ_ne_self _⟩) fun _ =>
      .get fun _ _ => Guarded.pure fun _ _ => trivial
  have guarded : Guarded Stop.Expected (· = ir)
      (irFunctionS (.function name paramsTab (paramsTab + 1) params (.scope scopeN body)))
      fun _ _ => True := by
    refine .bind (.modify start) fun _ => .bind Sound.newLable fun _ =>
      .bind (Sound.addIrNode _) fun _ => .bind (Sound.irParams _ _) fun _ =>
      .bind (built_frees block 0 usable) fun _ => .get fun state alive => ?_
    have kept : ∀ state', state' = state → state'.Alive (paramsTab + 1) after := by
      rintro _ rfl
      exact alive
    split
    · exact ending _ kept
    · exact .bind ((Sound.emitConst .const 0).mono kept fun _ _ alive => alive) fun _ =>
        .bind (Sound.addIrNode _) fun _ => ending _ fun _ alive => alive
  exact guarded.of_error rfl rejected

/-- A function with an unbraced body is read through a member that its body does
not store, whatever came before it. -/
private theorem irFunctionS_wrongMember {ir : Ir} {name : CStr} {paramsTab lableTab params : Nat}
    {body : AstNode} (notScope : body.kind ≠ .scope) (notElse : body.kind ≠ .else_) :
    ∃ final, irFunctionS (.function name paramsTab lableTab params body) ir =
      .error (.fault .wrongMember) final := by
  have read : ∀ state, irScope body state = .error (.fault .wrongMember) state := by
    intro state
    cases body <;> first | exact absurd rfl notScope | exact absurd rfl notElse | rfl
  rw [irFunctionS, bind_run_of_ok (modify_run _ _), bind_run_of_ok (newLable_run _),
    bind_run_of_ok (addIrNode_run _ _), bind_run_of_ok (irParams_run _ _ _),
    bind_run_of_error (read _)]
  exact ⟨_, rfl⟩

/-- How the generator ends early on the declarations of a program: as expected, or
at an unbraced function that it comes to. -/
private theorem genIrLoop_error {nodes : List AstNode} {globalTable lo hi : Nat} {ir final : Ir}
    {stop : Stop} (built : ProgramBuilt ir.heap globalTable nodes lo hi) (global : globalTable < lo)
    (present : (ir.heap.sets globalTable).isSome)
    (rejected : genIrLoop nodes ir = .error stop final) :
    stop.Expected ∨ stop = .fault .wrongMember ∧
      ∃ before name paramsTab lableTab params body after ir',
        nodes = before ++ .function name paramsTab lableTab params body :: after ∧
        genIrLoop before ir = .ok () ir' ∧ body.kind ≠ .scope := by
  induction nodes generalizing ir lo with
  | nil => cases rejected
  | cons node rest ih =>
      have extend : ∀ {ir₁ : Ir}, (∀ before, genIrLoop (node :: before) ir = genIrLoop before ir₁) →
          (stop.Expected ∨ stop = .fault .wrongMember ∧
            ∃ before name paramsTab lableTab params body after ir',
              rest = before ++ .function name paramsTab lableTab params body :: after ∧
              genIrLoop before ir₁ = .ok () ir' ∧ body.kind ≠ .scope) →
          stop.Expected ∨ stop = .fault .wrongMember ∧
            ∃ before name paramsTab lableTab params body after ir',
              node :: rest = before ++ .function name paramsTab lableTab params body :: after ∧
              genIrLoop before ir = .ok () ir' ∧ body.kind ≠ .scope := by
        intro ir₁ first later
        rcases later with expected | ⟨wrong, before, name, paramsTab, lableTab, params, body, after,
          ir', split, reached, unbraced⟩
        · exact .inl expected
        · exact .inr ⟨wrong, node :: before, name, paramsTab, lableTab, params, body, after, ir',
            by rw [split, List.cons_append], (first before).trans reached, unbraced⟩
      cases built with
      | @function name paramsTab lableTab params scopeN body nodes lo mid hi built later =>
          rcases bind_eq_error.mp rejected with rejected | ⟨top, ir₁, generated, rejected⟩
          · exact .inl (irFunctionS_expected built global present rejected)
          · have low := built.block.le
            have high := later.le
            obtain ⟨_, _, _, rfl, _, kept⟩ := irFunctionS_ok built global generated
            have sets : ∀ id : Nat, mid ≤ id → id < hi → ir₁.heap.sets id = ir.heap.sets id :=
              fun id lower _ => kept id (.inr lower)
            have globals : (ir₁.heap.sets globalTable).isSome := by
              rw [kept globalTable (.inl global)]
              exact present
            rcases bind_eq_error.mp rejected with added | ⟨_, ir₂, added, rejected⟩
            · cases added
            · cases added
              refine extend (fun before => ?_) (ih (by exact later.congr sets) (by omega)
                (by exact globals) rejected)
              rw [genIrLoop]
              exact bind_run_of_ok generated
      | @unbraced name paramsTab lableTab params body nodes lo mid hi notScope notElse ordered later =>
          obtain ⟨_, wrong⟩ : ∃ final, irFunctionS (.function name paramsTab lableTab params body) ir =
              .error (.fault .wrongMember) final := irFunctionS_wrongMember notScope notElse
          have stopped : genIrLoop (.function name paramsTab lableTab params body :: rest) ir =
              .error (.fault .wrongMember) _ := bind_run_of_error wrong
          cases stopped.symm.trans rejected
          exact .inr ⟨rfl, [], name, paramsTab, lableTab, params, body, rest, ir, rfl, rfl, notScope⟩
      | global later => exact extend (fun _ => rfl) (ih (by exact later) global (by exact present) rejected)
      | extrn later => exact extend (fun _ => rfl) (ih (by exact later) global (by exact present) rejected)

theorem genIrLoop_append (first second : List AstNode) (ir : Ir) :
    genIrLoop (first ++ second) ir = (genIrLoop first >>= fun _ => genIrLoop second) ir := by
  induction first generalizing ir with
  | nil => rfl
  | cons node rest ih =>
      cases node with
      | function name paramsTab lableTab params body =>
          simp only [List.cons_append, genIrLoop, bind_run]
          cases irFunctionS (.function name paramsTab lableTab params body) ir with
          | ok top middle => exact ih _
          | error stop final => rfl
      | _ => exact ih _

section

variable {tokens : List Token} {parser : Parser} {module : String}

theorem ComesTo.function {before after : List AstNode} {name : CStr}
    {paramsTab lableTab params : Nat} {body : AstNode} {ir : Ir}
    (parsed : Trident.parser (initParser tokens) = .ok () parser)
    (ast : parser.ast = before ++ .function name paramsTab lableTab params body :: after)
    (comes : ComesTo parser module before ir) :
    (∀ final, irFunctionS (.function name paramsTab lableTab params body) ir ≠
      .error (.fault .wrongMember) final) ↔ body.kind = .scope := by
  obtain ⟨global_lt, declared, built⟩ := parser_tables parsed
  rw [ast] at built
  obtain ⟨mid, first, second⟩ := built.split
  have kept := genIrLoop_kept (by exact first) (Nat.lt_succ_self _) comes
  have low := first.le
  cases second with
  | function built later =>
      refine ⟨fun _ => rfl, fun _ final wrong => ?_⟩
      obtain ⟨table, present, _⟩ := declared.congr (kept _ (.inl (Nat.lt_succ_self _)))
      have expected := irFunctionS_expected (built.congr fun id lower _ => kept id (.inr lower)) low
        (Option.isSome_iff_exists.mpr ⟨table, present⟩) wrong
      rcases expected with stopped | stopped <;> cases stopped
  | unbraced notScope notElse =>
      obtain ⟨final, wrong⟩ : ∃ final,
          irFunctionS (.function name paramsTab lableTab params body) ir =
            .error (.fault .wrongMember) final := irFunctionS_wrongMember notScope notElse
      exact ⟨fun tagged => absurd wrong (tagged final), fun braced => absurd braced notScope⟩

private theorem genIr_error {stop : Stop} {final : Ir}
    (parsed : Trident.parser (initParser tokens) = .ok () parser)
    (rejected : genIr module parser.ast (initIr parser) = .error stop final) :
    stop.Expected ∨ stop = .fault .wrongMember ∧
      ∃ before name paramsTab lableTab params body after ir,
        parser.ast = before ++ .function name paramsTab lableTab params body :: after ∧
        ComesTo parser module before ir ∧ body.kind ≠ .scope := by
  obtain ⟨global_lt, ⟨table, present, _⟩, built⟩ := parser_tables parsed
  exact genIrLoop_error (by exact built) (Nat.lt_succ_self _)
    (Option.isSome_iff_exists.mpr ⟨table, present⟩) rejected

/-- No set is used after it was freed, and none is freed twice. -/
theorem genIr_sets_alive (parsed : Trident.parser (initParser tokens) = .ok () parser)
    (final : Ir) : genIr module parser.ast (initIr parser) ≠ .error (.fault .freedTable) final := by
  intro rejected
  rcases genIr_error parsed rejected with (stopped | stopped) | ⟨stopped, _⟩ <;> cases stopped

/-- The generator reads every node through the member it stores, except for the
bodies of functions: the body of a function that it comes to must be braced. -/
theorem genIr_wellTagged (parsed : Trident.parser (initParser tokens) = .ok () parser) :
    (∀ before name paramsTab lableTab params body after ir,
      parser.ast = before ++ .function name paramsTab lableTab params body :: after →
      ComesTo parser module before ir →
      ((∀ final, irFunctionS (.function name paramsTab lableTab params body) ir ≠
        .error (.fault .wrongMember) final) ↔ body.kind = .scope)) ∧
    ((∀ final, genIr module parser.ast (initIr parser) ≠ .error (.fault .wrongMember) final) ↔
      ∀ before name paramsTab lableTab params body after ir,
        parser.ast = before ++ .function name paramsTab lableTab params body :: after →
        ComesTo parser module before ir → body.kind = .scope) := by
  refine ⟨fun before name paramsTab lableTab params body after ir ast comes =>
    comes.function parsed ast, ?_⟩
  constructor
  · intro tagged before name paramsTab lableTab params body after ir ast comes
    refine (comes.function parsed ast).mp fun final wrong => ?_
    refine tagged final ?_
    have run : genIr module parser.ast (initIr parser) =
        genIrLoop parser.ast { initIr parser with irTail := [.module module] } := rfl
    rw [run, ast, genIrLoop_append, bind_run_of_ok comes]
    exact bind_run_of_error wrong
  · intro braced final rejected
    rcases genIr_error parsed rejected with (stopped | stopped) | ⟨_, before, name, paramsTab,
      lableTab, params, body, after, ir, ast, comes, unbraced⟩
    · cases stopped
    · cases stopped
    · exact unbraced (braced before name paramsTab lableTab params body after ir ast comes)

end

/-- The generator reads a wrong member on this program. -/
def misread (tokens : List Token) : Bool :=
  match Trident.parser (initParser tokens) with
  | .ok _ parser =>
      match genIr "f.b" parser.ast (initIr parser) with
      | .error (.fault .wrongMember) _ => true
      | _ => false
  | .error .. => false

theorem genIr_unbraced : ∃ parser final,
    Trident.parser (initParser (sourceTokens "f() return 1;".toList)) = .ok () parser ∧
      genIr "f.b" parser.ast (initIr parser) = .error (.fault .wrongMember) final := by
  have wrong : misread (sourceTokens "f() return 1;".toList) = true := by decide +kernel
  unfold misread at wrong
  split at wrong
  next parser parsed =>
    split at wrong
    next final rejected => exact ⟨parser, final, parsed, rejected⟩
    · cases wrong
  · cases wrong

/-- The same function with braces around its body. -/
def bracedRun : FunctionRun :=
  (FunctionRun.first? (sourceTokens "f() \x7b return 1; \x7d".toList) "f.b").get (by decide +kernel)

theorem genIr_wellTagged_braced : ¬ ∃ final,
    irFunctionS (.function bracedRun.name bracedRun.paramsTab bracedRun.lableTab bracedRun.params
      (.scope bracedRun.scopeN bracedRun.body)) bracedRun.ir = .error (.fault .wrongMember) final :=
  fun ⟨final, wrong⟩ =>
    ((genIr_wellTagged bracedRun.parsed).1 bracedRun.before bracedRun.name bracedRun.paramsTab
      bracedRun.lableTab bracedRun.params _ bracedRun.after bracedRun.ir bracedRun.ast
      bracedRun.earlier).mpr rfl final wrong

end Trident
