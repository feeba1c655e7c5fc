import Trident.Ir.Faults
import Trident.Ir.Visits
import Trident.Ir.WellFormed

/-! Lexical scoping: which declaration `lookup_symbol` finds for the identifiers of
a function, and which temporaries the declarations get. -/

set_option autoImplicit false

namespace Trident

open Foundation

/-! What a lookup finds through the open blocks. -/

mutual

/-- The identifiers that are looked up for an expression. -/
def AstNode.identifiers : AstNode → List CStr
  | .atom kind value _ => if kind = .identifier then [value] else []
  | .unary _ node => node.identifiers
  | .binary left _ right => left.identifiers ++ right.identifiers
  | .functionCall _ args => identifiersOf args
  | _ => []
  termination_by structural node => node

def identifiersOf : List AstNode → List CStr
  | [] => []
  | node :: nodes => node.identifiers ++ identifiersOf nodes
  termination_by structural nodes => nodes

end

def ExprPhrase.identifiers : ExprPhrase → List CStr
  | .expr node => node.identifiers
  | .lvalue node => node.identifiers
  | .args nodes => identifiersOf nodes

/-- An accepted expression has an lvalue for each of its identifiers. -/
theorem Lowers.identifiers {vars : Vars} {phrase : ExprPhrase} {t t' : Nat} {code : List IrNode}
    {place : Place} (lowers : Lowers vars phrase t code place t') :
    ∀ name ∈ phrase.identifiers, ∃ lv, vars name = some lv := by
  induction lowers with
  | int | string | argsNil => exact nofun
  | identifier found | lvIdentifier found =>
      intro name member
      obtain rfl := List.mem_singleton.mp member
      exact ⟨_, found⟩
  | addressOf _ ih | load _ ih | neg _ ih | not _ ih | inc _ ih | dec _ ih | call _ ih
  | lvDeref _ ih => exact ih
  | assign _ _ rightIH leftIH =>
      intro name member
      rcases List.mem_append.mp member with left | right
      · exact leftIH name left
      · exact rightIH name right
  | binary _ _ _ _ leftIH rightIH | argsCons _ _ leftIH rightIH =>
      intro name member
      rcases List.mem_append.mp member with left | right
      · exact leftIH name left
      · exact rightIH name right

/-- The set of an open block: it has the variables of the block, and those that
were visited have storage. -/
def HsHeap.Opens (heap : HsHeap) (id : Nat) (frame : Frame) : Prop :=
  ∃ table, heap.sets id = some table ∧ ∀ name : Name,
    ((table.get name).map (·.kind) =
      if Names (autoNames frame.body) (some name) then some .autoVar else none) ∧
    ∀ info, table.get name = some info →
      (info.tempDest ≠ 0 ↔ Names (autoNames frame.before) (some name))

/-- A scope consists of the sets of the open blocks and those of `base`, which are
as they were in `start`. -/
inductive Opened (start heap : HsHeap) (base : List Nat) : List Frame → List Nat → Prop where
  | base : (∀ id ∈ base, heap.sets id = start.sets id) → Opened start heap base [] base
  | block {id frame frames scope} : heap.Opens id frame → Opened start heap base frames scope →
      Opened start heap base (frame :: frames) (id :: scope)

/-- The declaration of a name that is found from inside the blocks of `frames`:
that of the innermost one that declares it, textually before, else the parameter,
else the global. -/
inductive Finds (heap : HsHeap) (paramsTab globalTable : Nat) (name : Name) :
    List Frame → List Nat → Nat → VarInfo → Prop where
  | block {id frame frames scope info table} :
      heap.sets id = some table → table.get name = some info →
      Names (autoNames frame.body) (some name) → Names (autoNames frame.before) (some name) →
      info.kind = .autoVar → info.tempDest ≠ 0 →
      Finds heap paramsTab globalTable name (frame :: frames) (id :: scope) id info
  | outer {id frame frames scope found info} :
      ¬ Names (autoNames frame.body) (some name) →
      Finds heap paramsTab globalTable name frames scope found info →
      Finds heap paramsTab globalTable name (frame :: frames) (id :: scope) found info
  | param {info params} : heap.sets paramsTab = some params → params.get name = some info →
      Finds heap paramsTab globalTable name [] [paramsTab, globalTable] paramsTab info
  | global {info params globals} : heap.sets paramsTab = some params → params.get name = none →
      heap.sets globalTable = some globals → globals.get name = some info →
      Finds heap paramsTab globalTable name [] [paramsTab, globalTable] globalTable info

theorem Opened.congr {start heap heap' : HsHeap} {base scope : List Nat} {frames : List Frame}
    (opened : Opened start heap base frames scope)
    (same : ∀ id ∈ scope, heap'.sets id = heap.sets id) :
    Opened start heap' base frames scope := by
  induction opened with
  | base kept => exact .base fun id member => (same id member).trans (kept id member)
  | block opens _ ih =>
      obtain ⟨table, present, entries⟩ := opens
      refine .block ⟨table, ?_, entries⟩ (ih fun id member => same id (List.mem_cons_of_mem _ member))
      rw [same _ List.mem_cons_self, present]

/-- What an entry in the innermost set says about its name. -/
private theorem lvalue?_own {heap : HsHeap} {own : Nat} (parent : List Nat) {table : Hs} {name : Name}
    {info : VarInfo} (present : heap.sets own = some table) (found : table.get name = some info)
    (kind : info.kind = .autoVar) :
    (heap.lvalue? (own :: parent) (some name)).isSome ↔ info.tempDest ≠ 0 := by
  rw [HsHeap.lvalue?, lookup_own present found, Option.bind_some, VarInfo.lvalue?, kind]
  by_cases unset : info.tempDest = 0 <;> simp [unset]

/-- The set of a block after more of its statements were visited. -/
theorem HsHeap.Opens.later {heap heap' : HsHeap} {own : Nat} {parent : List Nat} {frame : Frame}
    {more : List AstNode} (opens : heap.Opens own frame)
    (keys : SameKeys (heap.sets own) (heap'.sets own))
    (vars : ∀ name, (heap'.lvalue? (own :: parent) name).isSome ↔
      (heap.lvalue? (own :: parent) name).isSome ∨ Names (autoNames more) name) :
    heap'.Opens own ⟨frame.body, frame.before ++ more⟩ := by
  obtain ⟨table, present, entries⟩ := opens
  obtain ⟨table', present', kinds⟩ := keys table present
  refine ⟨table', present', fun name => ⟨(kinds name).trans (entries name).1, fun info' found' => ?_⟩⟩
  obtain ⟨kind, storage⟩ := entries name
  have same := kinds name
  rw [found'] at same
  cases found : table.get name with
  | none =>
      rw [found] at same
      cases same
  | some info =>
      rw [found] at same kind
      have declared : info.kind = .autoVar := by
        by_cases names : Names (autoNames frame.body) (some name)
        · rw [if_pos names] at kind
          exact Option.some.inj kind
        · rw [if_neg names] at kind
          cases kind
      have declared' : info'.kind = .autoVar := (Option.some.inj same).trans declared
      rw [← lvalue?_own parent present' found' declared', vars,
        lvalue?_own parent present found declared, storage info found, autoNames_append, names_append]

private theorem names_singleton {stored name : CStr} : Names [stored] name ↔ SameName name stored := by
  simp [Names]

/-- A statement gives storage to what it declares, and to nothing else. -/
theorem Generates.vars_stmt {declared : CStr → Prop} {endLable : Nat} {node : AstNode}
    {g g' : GenState} {code : List (IrNode × List Nat)}
    (generates : Generates declared endLable (.stmt node) g code g') (name : CStr) :
    (g'.vars name).isSome ↔ (g.vars name).isSome ∨ Names (autoNames [node]) name := by
  cases node with
  | auto stored size =>
      cases generates
      change (Vars.bind g.vars stored _ name).isSome ↔ _ ∨ Names [stored] name
      rw [Vars.bind, names_singleton]
      by_cases same : SameName name stored <;> simp [same]
  | _ =>
      rw [(generates.scope_eq rfl).1]
      exact ⟨.inl, fun either => either.resolve_right (not_names_nil name)⟩

/-- What is known at a call inside of a body: the open blocks are those of the
scope, and the phrase is one that the parser builds there. -/
structure Visit.InScope (declared : CStr → Prop) (start : HsHeap) (base : List Nat) (v : Visit) :
    Prop where
  inside : v.frames ≠ []
  opened : Opened start v.ir.heap base v.frames v.scope
  phrase : ∀ phrase, v.part = .phrase phrase → ∃ own lo hi,
    Built v.ir.heap phrase v.scope lo hi ∧ Ready declared v.scope own lo phrase v.ir ∧
    ∀ nodes, phrase = .stmts nodes →
      ∃ frame frames, v.frames = frame :: frames ∧ frame.body = frame.before ++ nodes

/-! Every step from a visit to the next one keeps the tables as the open blocks say. -/

section Steps

variable {declared : CStr → Prop} {start : HsHeap} {base scope : List Nat} {own lo mid endLable : Nat}
  {ir final : Ir} {phrase phrase' : ScopePhrase}

theorem Ready.congr {ir' : Ir} (ready : Ready declared scope own lo phrase ir)
    (heap : ir'.heap = ir.heap) (lableTab : ir'.tLableTab = ir.tLableTab) :
    Ready declared scope own lo phrase ir' where
  placed := lableTab ▸ ready.placed
  innermost := ready.innermost
  known := by rw [heap, lableTab]; exact ready.known
  autos := by rw [heap]; exact ready.autos

/-- A phrase that follows in the same scope is still as the parser built it. -/
theorem Built.later {hi : Nat} {trail trail' : Trail} {code : List (IrNode × List Nat)}
    (rest : Built ir.heap phrase' scope mid hi) (ready : Ready declared scope own lo phrase ir)
    (generated : Generated declared scope own lo mid endLable phrase ir final trail trail' code)
    (low : lo ≤ mid) : Built final.heap phrase' scope mid hi := by
  refine rest.congr fun id lower upper => ?_
  have own_lt := ready.placed.below own ready.own_mem
  have lable_lt := ready.placed.lable_lt
  exact generated.changed.kept id (by omega) (by omega) (.inr lower)

/-- The open blocks after a phrase of the innermost one. -/
theorem Opened.later {frame : Frame} {frames : List Frame} (more : List AstNode)
    {trail trail' : Trail} {code : List (IrNode × List Nat)}
    (opened : Opened start ir.heap base (frame :: frames) scope)
    (ready : Ready declared scope own lo phrase ir)
    (generated : Generated declared scope own lo mid endLable phrase ir final trail trail' code)
    (vars : ∀ name, (final.heap.lvalue? scope name).isSome ↔
      (ir.heap.lvalue? scope name).isSome ∨ Names (autoNames more) name) :
    Opened start final.heap base (⟨frame.body, frame.before ++ more⟩ :: frames) scope := by
  obtain ⟨parent, rfl⟩ := ready.innermost
  cases opened with
  | block opens outer =>
      refine .block (opens.later generated.changed.own_keys vars) (outer.congr fun id member => ?_)
      have placed := ready.placed
      have notOwn : id ≠ own := by
        rintro rfl
        exact (List.nodup_cons.mp placed.nodup).1 member
      have inScope := List.mem_cons_of_mem own member
      exact generated.changed.kept id notOwn (fun same => placed.apart (same ▸ inScope))
        (.inl (placed.below id inScope))

/-- The same when the phrase declares nothing in its own scope. -/
theorem Opened.same {frames : List Frame} {trail trail' : Trail}
    {code : List (IrNode × List Nat)} (opened : Opened start ir.heap base frames scope)
    (inside : frames ≠ []) (ready : Ready declared scope own lo phrase ir)
    (generated : Generated declared scope own lo mid endLable phrase ir final trail trail' code)
    (undeclared : phrase.autos = []) : Opened start final.heap base frames scope := by
  cases frames with
  | nil => exact absurd rfl inside
  | cons frame frames =>
      have vars : final.heap.lvalue? scope = ir.heap.lvalue? scope :=
        (generated.generates.scope_eq undeclared).1
      have later := opened.later [] ready generated fun name => by
        rw [vars]
        exact ⟨.inl, fun either => either.resolve_right (not_names_nil name)⟩
      rw [List.append_nil] at later
      exact later

theorem HsHeap.Declares.opens {heap : HsHeap} {id : Nat} {body : List AstNode}
    (declares : heap.Declares id autoInfo (autoNames body)) : heap.Opens id ⟨body, []⟩ := by
  obtain ⟨table, present, entries⟩ := declares
  refine ⟨table, present, fun name => ⟨?_, fun info found => ?_⟩⟩
  · rw [entries]
    by_cases declared : Names (autoNames body) (some name) <;> simp [declared, autoInfo]
  · rw [entries] at found
    split at found
    · cases found
      exact ⟨fun set => absurd rfl set, fun declared => absurd declared (not_names_nil _)⟩
    · cases found

/-- Entering a block. -/
theorem Visit.InScope.block {frames : List Frame} {scopeN : AstScope} {body : List AstNode} {hi : Nat}
    (built : Built ir.heap (.block scopeN body) scope lo hi)
    (ready : Ready declared scope own lo (.block scopeN body) ir)
    (opened : Opened start ir.heap base frames scope) :
    Visit.InScope declared start base
      ⟨⟨body, []⟩ :: frames, scopeN.chain, endLable, .phrase (.stmts body), ir⟩ := by
  cases built with
  | block declares inner =>
      refine ⟨List.cons_ne_nil _ _, .block declares.opens opened, fun phrase same => ?_⟩
      cases same
      refine ⟨lo, lo + 1, hi, inner, ?_, fun nodes same => ⟨_, frames, rfl, ?_⟩⟩
      · exact ⟨ready.placed.inner, ⟨scope, rfl⟩, ready.known, ownAutos_of_declares declares⟩
      · cases same
        rfl

/-- Every call that is made inside a scope is made inside one. -/
theorem Visit.Next.inScope {v w : Visit} (next : Next v w)
    (valid : v.InScope declared start base) : w.InScope declared start base := by
  obtain ⟨inside, opened, known⟩ := valid
  cases next with
  | return_ | expr => exact ⟨inside, opened, nofun⟩
  | scope =>
      obtain ⟨own, lo, hi, built, ready, _⟩ := known _ rfl
      cases built with
      | scope block =>
          refine ⟨inside, opened, fun phrase same => ?_⟩
          cases same
          exact ⟨own, lo, hi, block, ready.same rfl rfl rfl, nofun⟩
  | if_ member =>
      dsimp only at known
      obtain ⟨own, lo, hi, built, ready, _⟩ := known _ rfl
      cases built with
      | if_ block chain =>
          obtain ⟨rfl⟩ := block.scopeN_eq
          cases member
          refine ⟨inside, opened, fun phrase same => ?_⟩
          cases same
          exact ⟨own, lo, hi, .elseIf block chain, ready.same rfl rfl rfl, nofun⟩
  | whileCondition member =>
      dsimp only at known
      obtain ⟨own, lo, hi, built, ready, _⟩ := known _ rfl
      cases built with
      | while_ block =>
          obtain ⟨rfl⟩ := block.scopeN_eq
          cases member
          exact ⟨inside, opened, nofun⟩
  | whileBody lowered =>
      dsimp only at known
      obtain ⟨own, lo, hi, built, ready, _⟩ := known _ rfl
      cases built with
      | while_ block =>
          obtain ⟨rfl⟩ := block.scopeN_eq
          obtain ⟨code, tempC, _, rfl⟩ := irExprF_lowers _ lowered
          refine ⟨inside, opened, fun phrase same => ?_⟩
          cases same
          exact ⟨own, _, hi, block, ready.same rfl rfl rfl, nofun⟩
  | first =>
      obtain ⟨own, lo, hi, built, ready, _⟩ := known _ rfl
      cases built with
      | @cons _ _ _ _ mid _ firstBuilt restBuilt =>
          refine ⟨inside, opened, fun phrase same => ?_⟩
          cases same
          exact ⟨own, lo, mid, firstBuilt, ready.first, nofun⟩
  | @rest frame frames scope endLable node nodes ir ir' visited =>
      obtain ⟨own, lo, hi, built, ready, position⟩ := known _ rfl
      cases built with
      | @cons _ _ _ _ mid _ firstBuilt restBuilt =>
          obtain ⟨code, trail', generated⟩ := built_handles firstBuilt endLable ⟨[], []⟩
            ready.first (fun _ _ _ => rfl) visited
          have low := firstBuilt.le
          obtain ⟨frame', frames', same, body⟩ := position _ rfl
          cases same
          refine ⟨List.cons_ne_nil _ _,
            opened.later [node] ready.first generated generated.generates.vars_stmt, fun phrase same => ?_⟩
          cases same
          refine ⟨own, mid, hi, restBuilt.later ready.first generated low,
            ready.later generated.changed generated.lableTab low fun _ => ready.rest_autos,
            fun nodes' same => ⟨_, frames, rfl, ?_⟩⟩
          cases same
          rw [body, List.append_assoc]
          rfl
  | block =>
      obtain ⟨own, lo, hi, built, ready, _⟩ := known _ rfl
      exact .block built ready opened
  | condition => exact ⟨inside, opened, nofun⟩
  | body lowered =>
      obtain ⟨own, lo, hi, built, ready, _⟩ := known _ rfl
      cases built with
      | @elseIf _ _ _ _ _ _ mid _ block chain =>
          obtain ⟨code, tempC, _, rfl⟩ := irExprF_lowers _ lowered
          refine ⟨inside, opened, fun phrase same => ?_⟩
          cases same
          exact ⟨own, _, mid, block, ready.same rfl rfl rfl, nofun⟩
  | @chain frames scope endLable condition body rest t ir ir' ir'' lowered bodyRun =>
      obtain ⟨own, lo, hi, built, ready, _⟩ := known _ rfl
      cases built with
      | @elseIf _ scopeN inner _ _ _ mid _ block chain =>
          obtain ⟨code, tempC, _, rfl⟩ := irExprF_lowers _ lowered
          have blockReady : Ready declared scope own lo (.block scopeN inner)
              ((((ir.label 2).append code tempC).add
                [.branch (ir.lableC + 1) (ir.lableC + 2) t]).add [.label (ir.lableC + 1)]) :=
            ready.same rfl rfl rfl
          obtain ⟨blockCode, trail', generated⟩ := built_handles block 0 ⟨[], []⟩ blockReady
            (fun _ _ _ => rfl) bodyRun
          have opened' : Opened start ir''.heap base frames scope :=
            Opened.same (by exact opened) inside blockReady generated (by rfl)
          have chain' : Built ir''.heap (.chain rest) scope mid hi :=
            Built.later (by exact chain) blockReady generated block.le
          have chainReady : Ready declared scope own mid (.chain rest) ir'' :=
            blockReady.later generated.changed generated.lableTab block.le nofun
          refine ⟨inside, opened', fun phrase same => ?_⟩
          cases same
          exact ⟨own, mid, hi, chain', chainReady.congr rfl rfl, nofun⟩
  | else_ =>
      obtain ⟨own, lo, hi, built, ready, _⟩ := known _ rfl
      cases built with
      | else_ block =>
          refine ⟨inside, opened, fun phrase same => ?_⟩
          cases same
          exact ⟨own, lo, hi, block, ready.same rfl rfl rfl, nofun⟩

theorem Visit.Reaches.inScope {v w : Visit} (reaches : Reaches v w)
    (valid : v.InScope declared start base) : w.InScope declared start base := by
  induction reaches with
  | refl => exact valid
  | tail _ next ih => exact next.inScope ih

end Steps

/-! The results about all visits of a function. -/

/-- A name with an lvalue is that of a declaration which the lookup finds. -/
theorem Opened.finds {start heap : HsHeap} {paramsTab globalTable : Nat} {frames : List Frame}
    {scope : List Nat} {params globals : Hs} {name : Name} {lv : LValue}
    (opened : Opened start heap [paramsTab, globalTable] frames scope)
    (paramsAlive : start.sets paramsTab = some params)
    (globalsAlive : start.sets globalTable = some globals)
    (found : heap.lvalue? scope (some name) = some lv) :
    ∃ id info, heap.lookup scope (some name) = some (id, info) ∧
      Finds heap paramsTab globalTable name frames scope id info := by
  induction opened with
  | base kept =>
      have paramsKept := kept paramsTab (by simp)
      have globalsKept := kept globalTable (by simp)
      rw [paramsAlive] at paramsKept
      rw [globalsAlive] at globalsKept
      cases entry : params.get name with
      | some info =>
          exact ⟨paramsTab, info, lookup_own paramsKept entry, .param paramsKept entry⟩
      | none =>
          cases entry' : globals.get name with
          | some info =>
              refine ⟨globalTable, info, ?_, .global paramsKept entry globalsKept entry'⟩
              simp [HsHeap.lookup, paramsKept, globalsKept, entry, entry']
          | none => simp [HsHeap.lvalue?, HsHeap.lookup, paramsKept, globalsKept, entry, entry'] at found
  | @block id frame frames scope opens outer ih =>
      obtain ⟨table, present, entries⟩ := opens
      obtain ⟨kind, storage⟩ := entries name
      by_cases declared : Names (autoNames frame.body) (some name)
      · rw [if_pos declared] at kind
        obtain ⟨info, entry, infoKind⟩ := Option.map_eq_some_iff.mp kind
        have set : info.tempDest ≠ 0 := by
          rw [← lvalue?_own scope present entry infoKind, found]
          rfl
        exact ⟨id, info, lookup_own present entry,
          .block present entry declared ((storage info entry).mp set) infoKind set⟩
      · rw [if_neg declared] at kind
        have missing := Option.map_eq_none_iff.mp kind
        have outside : heap.lookup (id :: scope) (some name) = heap.lookup scope (some name) := by
          simp [HsHeap.lookup, present, missing]
        rw [HsHeap.lvalue?, outside] at found
        obtain ⟨found, info, looked, finds⟩ := ih found
        exact ⟨found, info, outside.trans looked, .outer declared finds⟩

private theorem lookup_none (heap : HsHeap) (scope : List Nat) : heap.lookup scope none = none := by
  induction scope with
  | nil => rfl
  | cons id parent ih => simpa [HsHeap.lookup] using ih

theorem Opened.alive {start heap : HsHeap} {base scope : List Nat} {frames : List Frame}
    (opened : Opened start heap base frames scope)
    (alive : ∀ id ∈ base, (start.sets id).isSome) : ∀ id ∈ scope, (heap.sets id).isSome := by
  induction opened with
  | base kept =>
      intro id member
      rw [kept id member]
      exact alive id member
  | block opens _ ih =>
      intro id member
      rcases List.mem_cons.mp member with rfl | outer
      · obtain ⟨table, present, _⟩ := opens
        exact Option.isSome_iff_exists.mpr ⟨table, present⟩
      · exact ih id outer

/-- Storing an entry is not seen under another name. -/
private theorem lookup_write {heap : HsHeap} {own : Nat} {parent : List Nat} {table : Hs} {stored : Name}
    {info : VarInfo} {other : CStr} (present : heap.sets own = some table) (fresh : own ∉ parent)
    (different : ¬ SameName other (some stored)) :
    (heap.write own (table.put stored info)).lookup (own :: parent) other =
      heap.lookup (own :: parent) other := by
  have outer : (heap.write own (table.put stored info)).lookup parent other =
      heap.lookup parent other :=
    lookup_congr (fun id member => heap.write_of_ne _ (ne_of_mem_of_not_mem member fresh)) other
  cases other with
  | none => simpa [HsHeap.lookup, present] using outer
  | some other =>
      have changed : cstr other ≠ cstr stored := fun same => different ⟨rfl, congrArg some same⟩
      simp only [HsHeap.lookup, HsHeap.write_self, present, Option.bind_some, Hs.get_put,
        if_neg changed]
      rw [outer]

namespace Visit

variable {v w : Visit} {name name' : CStr} {size size' : Nat}

/-- A declaration takes a temporary that no later call gets. -/
theorem Before.temp_lt (part : v.part = .phrase (.stmt (.auto name size))) (before : v.Before w) :
    v.ir.tempC < w.ir.tempC := by
  obtain ⟨final, ended, later⟩ := before
  unfold Ends action at ended
  rw [part] at ended
  obtain ⟨id, info, table, stored, _, _, _, rfl⟩ := irAutoS_ok ended
  exact later.temps

/-- Two declarations do not share their temporary. -/
theorem Reaches.eq_of_temp {start : Visit} (left : Reaches start v) (right : Reaches start w)
    (part : v.part = .phrase (.stmt (.auto name size)))
    (part' : w.part = .phrase (.stmt (.auto name' size'))) (same : v.ir.tempC = w.ir.tempC) :
    v = w := by
  rcases left.linear right with inside | inside | before | before
  · exact (inside.of_auto part).symm
  · exact inside.of_auto part'
  · exact absurd same (Nat.ne_of_lt (before.temp_lt part))
  · exact absurd same (Nat.ne_of_gt (before.temp_lt part'))

/-- A declaration changes one entry of the innermost set. -/
theorem InScope.auto {declared : CStr → Prop} {start : HsHeap} {base : List Nat} {final : Ir}
    (valid : v.InScope declared start base) (part : v.part = .phrase (.stmt (.auto name size)))
    (ended : v.Ends final) :
    ∃ own parent, v.scope = own :: parent ∧
      final.heap.lookup v.scope name = some (own, ⟨.autoVar, v.ir.tempC + 1⟩) ∧
      (∀ id, id ≠ own → final.heap.sets id = v.ir.heap.sets id) ∧
      ∀ other, ¬ SameName other name →
        final.heap.lookup v.scope other = v.ir.heap.lookup v.scope other := by
  obtain ⟨own, lo, hi, built, ready, _⟩ := valid.phrase _ part
  obtain ⟨parent, scope⟩ := ready.innermost
  unfold Ends action at ended
  rw [part] at ended
  obtain ⟨id, info, table, stored, rfl, looked, present, rfl⟩ := irAutoS_ok ended
  obtain ⟨table', info', present', found, kind⟩ := ready.autos stored (List.mem_singleton.mpr rfl)
  rw [scope, lookup_own present' found] at looked
  cases looked
  cases present'.symm.trans present
  refine ⟨own, parent, scope, ?_, fun id other => HsHeap.write_of_ne _ _ other, fun other different => ?_⟩
  · rw [scope, lookup_own (HsHeap.write_self _ _ _) (Hs.get_put_self _ _ _), kind]
  · have placed := ready.placed
    rw [scope] at placed ⊢
    exact lookup_write present (List.nodup_cons.mp placed.nodup).1 different

/-- A block leaves the variables around it as they were. -/
theorem InScope.block_vars {declared : CStr → Prop} {start : HsHeap} {base : List Nat} {final : Ir}
    {scopeN : AstScope} {body : List AstNode} (valid : v.InScope declared start base)
    (part : v.part = .phrase (.block scopeN body)) (ended : v.Ends final) :
    final.heap.lvalue? v.scope = v.ir.heap.lvalue? v.scope := by
  obtain ⟨own, lo, hi, built, ready, _⟩ := valid.phrase _ part
  unfold Ends action at ended
  rw [part] at ended
  obtain ⟨code, trail', generated⟩ :=
    built_handles built v.endLable ⟨[], []⟩ ready (fun _ _ _ => rfl) ended
  exact (generated.generates.scope_eq rfl).1

end Visit

/-- Every call but the one on the whole body of a function is made inside it. -/
theorem FunctionBuilt.inScope {ir : Ir} {globalTable paramsTab lableTab params lo hi : Nat}
    {scopeN : AstScope} {body : List AstNode}
    (built : FunctionBuilt ir.heap globalTable paramsTab lableTab params scopeN body lo hi)
    (global : globalTable < lo) {v : Visit}
    (reached : (Visit.ofBody ir paramsTab globalTable lableTab params scopeN body).Reaches v)
    (inner : v ≠ Visit.ofBody ir paramsTab globalTable lableTab params scopeN body) :
    v.InScope (Names (lablesOf body)) ir.heap [paramsTab, globalTable] := by
  have ready := built.ready global
  have block := built.block
  rw [← built.paramsTab_eq] at block ready
  rcases Relation.ReflTransGen.cases_head reached with same | ⟨middle, next, reached⟩
  · exact absurd same.symm inner
  · have opened : Opened ir.heap (ir.atBody lableTab params).heap [paramsTab, globalTable] []
        [paramsTab, globalTable] := .base fun _ _ => rfl
    cases next with
    | block => exact Visit.Reaches.inScope reached (.block block ready opened)

namespace FunctionRun

variable (run : FunctionRun)

theorem tables_alive : ∃ params globals, run.ir.heap.sets run.paramsTab = some params ∧
    run.ir.heap.sets run.parser.globalTable = some globals := by
  obtain ⟨lo, hi, global, built, ⟨globals, globalsAlive, _⟩⟩ := run.built
  obtain ⟨params, paramsAlive, _⟩ := built.params_in
  exact ⟨params, globals, built.paramsTab_eq ▸ paramsAlive, globalsAlive⟩

/-- Every call but the one on the whole body is made inside it. -/
theorem inScope {v : Visit} (reached : run.start.Reaches v) (inner : v ≠ run.start) :
    v.InScope (Names (lablesOf run.body)) run.ir.heap [run.paramsTab, run.parser.globalTable] := by
  obtain ⟨lo, hi, global, built, _⟩ := run.built
  exact built.inScope global reached inner

/-- Lexical scoping. Every identifier of an expression in the function is found
where `Finds` says, whatever the code of the expression has emitted before. A
declaration gets a temporary that no other one has and no parameter, and changes
nothing but its own entry; a block leaves the variables around it as they were. No
set is used after it was freed, in any run of the generator on a parsed program. -/
theorem lexical_scoping :
    (∀ (v : Visit) (node : AstNode) (name : CStr), run.start.Reaches v → v.part = .expr node →
      name ∈ node.identifiers → ∃ stored id info, name = some stored ∧
        (∀ ir : Ir, ir.heap = v.ir.heap →
          lookupSymbol v.scope name ir = .ok (some (id, info)) ir) ∧
        Finds v.ir.heap run.paramsTab run.parser.globalTable stored v.frames v.scope id info) ∧
    (∀ (v : Visit) (name : CStr) (size : Nat) (final : Ir), run.start.Reaches v →
      v.part = .phrase (.stmt (.auto name size)) → v.Ends final →
      run.params < v.ir.tempC + 1 ∧ ∃ own parent, v.scope = own :: parent ∧
        final.heap.lookup v.scope name = some (own, ⟨.autoVar, v.ir.tempC + 1⟩) ∧
        (∀ id, id ≠ own → final.heap.sets id = v.ir.heap.sets id) ∧
        ∀ other, ¬ SameName other name →
          final.heap.lookup v.scope other = v.ir.heap.lookup v.scope other) ∧
    (∀ (v w : Visit) (name name' : CStr) (size size' : Nat), run.start.Reaches v →
      run.start.Reaches w → v.part = .phrase (.stmt (.auto name size)) →
      w.part = .phrase (.stmt (.auto name' size')) → v.ir.tempC + 1 = w.ir.tempC + 1 → v = w) ∧
    (∀ (v : Visit) (scopeN : AstScope) (body : List AstNode) (final : Ir), run.start.Reaches v →
      v ≠ run.start → v.part = .phrase (.block scopeN body) → v.Ends final →
      final.heap.lvalue? v.scope = v.ir.heap.lvalue? v.scope) ∧
    ∀ (tokens : List Token) (parser : Parser) (module : String) (final : Ir),
      Trident.parser (initParser tokens) = .ok () parser →
      genIr module parser.ast (initIr parser) ≠ .error (.fault .freedTable) final := by
  obtain ⟨params, globals, paramsAlive, globalsAlive⟩ := run.tables_alive
  refine ⟨?_, ?_, ?_, ?_, fun _ _ _ final parsed => genIr_sets_alive parsed final⟩
  · intro v node name reached part member
    have valid := run.inScope reached fun same => by rw [same] at part; cases part
    obtain ⟨final, ended, _⟩ := run.reaches_ends reached
    unfold Visit.Ends Visit.action at ended
    rw [part] at ended
    obtain ⟨t, lowered⟩ := discard_eq_ok.mp ended
    obtain ⟨code, tempC, lowers, _⟩ := irExprF_lowers node lowered
    obtain ⟨lv, found⟩ := lowers.identifiers name member
    cases name with
    | none => simp [HsHeap.lvalue?, lookup_none] at found
    | some stored =>
        obtain ⟨id, info, looked, finds⟩ := valid.opened.finds paramsAlive globalsAlive found
        refine ⟨stored, id, info, rfl, fun ir heap => ?_, finds⟩
        have alive : ∀ id ∈ v.scope, (ir.heap.sets id).isSome := by
          rw [heap]
          refine valid.opened.alive fun id member => ?_
          simp only [List.mem_cons, List.not_mem_nil, or_false] at member
          rcases member with rfl | rfl
          · exact Option.isSome_iff_exists.mpr ⟨params, paramsAlive⟩
          · exact Option.isSome_iff_exists.mpr ⟨globals, globalsAlive⟩
        rw [lookupSymbol_run alive, heap, looked]
  · intro v name size final reached part ended
    have valid := run.inScope reached fun same => by rw [same] at part; cases part
    have least : run.params + run.params ≤ v.ir.tempC := reached.starts.temps
    exact ⟨by omega, valid.auto part ended⟩
  · intro v w name name' size size' left right part part' same
    exact left.eq_of_temp right part part' (Nat.succ.inj same)
  · intro v scopeN body final reached inner part ended
    exact (run.inScope reached inner).block_vars part ended

end FunctionRun

/-- A function with a variable that hides one of the same name. -/
def shadowRun : FunctionRun :=
  (FunctionRun.first? (sourceTokens
    "f(a) \x7b auto x; \x7b auto x; x = a; \x7d while (x) \x7b x = x; \x7d \x7d".toList) "f.b").get
    (by decide +kernel)

/-- `auto x; { auto x; e; } while ...`, with a use of `x` in `e`. -/
def isShadowBody : List AstNode → Bool
  | [.auto outer _, .scope _ [.auto inner _, .expr node], .while_ _ _] =>
      outer == some [byte 'x'] && inner == some [byte 'x'] && node.identifiers.contains (some [byte 'x'])
  | _ => false

/-- The inner variable is the one found, and it does not share the temporary of the other. -/
theorem lexical_scoping_shadowed :
    ∃ (outer inner use : Visit) (size size' : Nat) (node : AstNode) (id : Nat),
      shadowRun.start.Reaches outer ∧ shadowRun.start.Reaches inner ∧ shadowRun.start.Reaches use ∧
      outer.part = .phrase (.stmt (.auto (some [byte 'x']) size)) ∧
      inner.part = .phrase (.stmt (.auto (some [byte 'x']) size')) ∧
      use.part = .expr node ∧ some [byte 'x'] ∈ node.identifiers ∧
      lookupSymbol use.scope (some [byte 'x']) use.ir =
        .ok (some (id, ⟨.autoVar, inner.ir.tempC + 1⟩)) use.ir ∧
      use.scope.head? = some id ∧ outer.ir.tempC ≠ inner.ir.tempC := by
  have shape : isShadowBody shadowRun.body = true := by decide +kernel
  generalize body : shadowRun.body = nodes at shape
  unfold isShadowBody at shape
  split at shape
  case h_2 => cases shape
  simp only [Bool.and_eq_true, beq_iff_eq, List.contains_iff_mem] at shape
  obtain ⟨⟨rfl, rfl⟩, member⟩ := shape
  obtain ⟨found, stored, apart, -⟩ := shadowRun.lexical_scoping
  -- from the body of the function to the use, with the two declarations passed on the way
  have start : shadowRun.start.Reaches ⟨[], _, 0, .phrase (.block shadowRun.scopeN shadowRun.body), _⟩ :=
    .refl
  rw [body] at start
  have outer := start.tail .block
  obtain ⟨_, -, behind⟩ := shadowRun.reaches_rest outer
  have inner := ((behind.tail .first).tail .scope).tail .block
  obtain ⟨ir, ended, last⟩ := shadowRun.reaches_rest inner
  have use := (last.tail .first).tail .expr
  have inner := inner.tail .first
  have outer := outer.tail .first
  obtain ⟨_, own, parent, same, known, -⟩ := stored _ _ _ _ inner rfl ended
  obtain ⟨_, id, info, named, looked, -⟩ := found _ _ _ use rfl member
  cases named
  have looked := looked ir rfl
  obtain ⟨-, entry⟩ := lookupSymbol_ok looked
  cases entry.trans known
  refine ⟨_, _, _, _, _, _, own, outer, inner, use, rfl, rfl, rfl, member, looked, ?_, fun clash => ?_⟩
  · exact congrArg List.head? same
  · cases apart _ _ _ _ _ _ outer inner rfl rfl (congrArg Nat.succ clash)

end Trident
