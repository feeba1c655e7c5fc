import Trident.Ir.Lowering
import Trident.Parser.Program

/-! What the generator emits for a function body, as a relation that mentions
neither the context nor the hash sets: visible variables and numbers of labels
are functions on names, and every node comes with the variables that the blocks
around it have declared before it. -/

set_option autoImplicit false

namespace Trident

open Foundation

/-! The relation between a phrase and its code. -/

/-- The visible variables that have storage. -/
abbrev Vars := CStr → Option LValue

def Vars.bind (vars : Vars) (name : CStr) (lv : LValue) : Vars :=
  fun other => if SameName other name then some lv else vars other

/-- The variables seen at the start of a block that declares `names`. -/
def Vars.hide (vars : Vars) (names : List CStr) : Vars :=
  fun other => if Names names other then none else vars other

/-- What a run of the generator leaves behind besides its context: `made` lists
the labels numbered for control flow, and `held` the address temporaries of the
variables declared so far in the blocks that are open. -/
structure Trail where
  made : List Nat
  held : List Nat

/-- The counters and tables of the generator; `named` holds the numbers of the
labels of the source. -/
structure GenState extends Trail where
  vars : Vars
  temps : Nat
  lables : Nat
  named : CStr → Option Nat

/-- The number of a named label, given to it now if it has none. -/
def GenState.number (g : GenState) (name : CStr) : Nat × GenState :=
  match g.named name with
  | some id => (id, g)
  | none =>
      (g.lables + 1,
        { g with
          lables := g.lables + 1
          named := fun other => if SameName other name then some (g.lables + 1) else g.named other })

def Trail.make (trail : Trail) (first count : Nat) : Trail :=
  { trail with made := trail.made ++ List.range' first count }

/-- The next `count` labels, for control flow. -/
def GenState.make (g : GenState) (count : Nat) : GenState :=
  { g with lables := g.lables + count, toTrail := g.toTrail.make (g.lables + 1) count }

/-- Nodes emitted where the variables `held` are declared. -/
def mark (held : List Nat) (code : List IrNode) : List (IrNode × List Nat) :=
  code.map fun node => (node, held)

@[simp] theorem mark_fst (held : List Nat) (code : List IrNode) :
    (mark held code).map Prod.fst = code := by
  simp [mark, Function.comp_def]

@[simp] theorem mem_mark {held : List Nat} {code : List IrNode} {marked : IrNode × List Nat} :
    marked ∈ mark held code ↔ marked.1 ∈ code ∧ marked.2 = held := by
  obtain ⟨node, kept⟩ := marked
  simp [mark, eq_comm]

/-- `Generates declared endLable phrase g code g'`: with the labels `declared`,
the code of `phrase` takes the generator from `g` to `g'`. A chain jumps to
`endLable` after each of its branches. -/
inductive Generates (declared : CStr → Prop) :
    Nat → ScopePhrase → GenState → List (IrNode × List Nat) → GenState → Prop where
  | return_ {endLable node g code t t'} :
      Lowers g.vars (.expr node) g.temps code (.temp t) t' →
      Generates declared endLable (.stmt (.return_ (some node))) g
        (mark g.held (code ++ [.ret t])) { g with temps := t' }
  | expr {endLable node g code t t'} :
      Lowers g.vars (.expr node) g.temps code (.temp t) t' →
      Generates declared endLable (.stmt (.expr node)) g (mark g.held code)
        { g with temps := t' }
  | auto {endLable name size} {g : GenState} :
      Generates declared endLable (.stmt (.auto name size)) g
        (mark g.held [.operation (g.temps + 1) .alloc 0 0])
        { g with
          temps := g.temps + 1
          vars := g.vars.bind name (.local_ (g.temps + 1))
          held := (g.temps + 1) :: g.held }
  | extrn {endLable name g} : Generates declared endLable (.stmt (.extrn name)) g [] g
  | lable {endLable name g} :
      declared name →
      Generates declared endLable (.stmt (.lable name)) g
        (mark g.held [.label (g.number name).1]) (g.number name).2
  | goto {endLable name g} :
      declared name →
      Generates declared endLable (.stmt (.goto name)) g
        (mark g.held [.jump (g.number name).1]) (g.number name).2
  | scope {endLable scopeN body g code g'} :
      Generates declared endLable (.block scopeN body) g code g' →
      Generates declared endLable (.stmt (.scope scopeN body)) g code g'
  | if_ {endLable condition body chain g code g'} :
      Generates declared (g.lables + 1) (.chain (some (.elseIf condition body chain)))
        (g.make 1) code g' →
      Generates declared endLable (.stmt (.if_ condition body chain)) g
        (code ++ mark g.held [.label (g.lables + 1)]) g'
  | while_ {endLable condition scopeN body g code c t bodyCode g'} :
      Lowers g.vars (.expr condition) g.temps code (.temp c) t →
      Generates declared endLable (.block scopeN body) { g.make 3 with temps := t } bodyCode g' →
      Generates declared endLable (.stmt (.while_ condition (.scope scopeN body))) g
        (mark g.held (.label (g.lables + 1) ::
            code ++ [.branch (g.lables + 2) (g.lables + 3) c, .label (g.lables + 2)]) ++
          bodyCode ++ mark g.held [.jump (g.lables + 1), .label (g.lables + 3)]) g'
  | nil {endLable g} : Generates declared endLable (.stmts []) g [] g
  | cons {endLable node nodes g code middle code' g'} :
      Generates declared endLable (.stmt node) g code middle →
      Generates declared endLable (.stmts nodes) middle code' g' →
      Generates declared endLable (.stmts (node :: nodes)) g (code ++ code') g'
  | block {endLable scopeN body} {g g' : GenState} {code} :
      Generates declared endLable (.stmts body)
        { g with vars := g.vars.hide (autoNames body) } code g' →
      Generates declared endLable (.block scopeN body) g code
        { g' with vars := g.vars, held := g.held }
  | noChain {endLable g} : Generates declared endLable (.chain none) g [] g
  | elseIf {endLable condition scopeN body chain g code c t bodyCode middle chainCode g'} :
      Lowers g.vars (.expr condition) g.temps code (.temp c) t →
      Generates declared endLable (.block scopeN body) { g.make 2 with temps := t } bodyCode
        middle →
      Generates declared endLable (.chain chain) middle chainCode g' →
      Generates declared endLable (.chain (some (.elseIf condition (.scope scopeN body) chain))) g
        (mark g.held (code ++ [.branch (g.lables + 1) (g.lables + 2) c, .label (g.lables + 1)]) ++
          bodyCode ++ mark g.held [.jump endLable, .label (g.lables + 2)] ++ chainCode) g'
  | else_ {endLable scopeN body g code g'} :
      Generates declared endLable (.block scopeN body) g code g' →
      Generates declared endLable (.chain (some (.else_ scopeN body))) g code g'

/-! The part of the symbol tables that the relation depends on, and how a phrase changes it. -/

/-- The number that a label table gives to a name. -/
def HsHeap.lableNumber (heap : HsHeap) (id : Nat) (name : CStr) : Option Nat :=
  ((heap.sets id).bind fun table => name.bind table.get).bind fun info =>
    if info.tempDest = 0 then none else some info.tempDest

/-- What the context of the generator amounts to in a scope. -/
def Ir.genState (ir : Ir) (scope : List Nat) (trail : Trail) : GenState where
  vars := ir.heap.lvalue? scope
  temps := ir.tempC
  lables := ir.lableC
  named := ir.heap.lableNumber ir.tLableTab
  toTrail := trail

/-- The function of the generator that handles a phrase. -/
def irPhrase (endLable : Nat) (scope : List Nat) : ScopePhrase → IrM Unit
  | .stmt node => irStatements node scope
  | .stmts nodes => irScopeBody nodes scope
  | .block scopeN body => irScopeWith scopeN (irScopeBody body scopeN.chain)
  | .chain rest => irChain rest scope endLable

/-- A set that is still there, with the same names and kinds. -/
def SameKeys (before after : Option Hs) : Prop :=
  ∀ table, before = some table → ∃ table', after = some table' ∧
    ∀ name, (table'.get name).map (·.kind) = (table.get name).map (·.kind)

theorem SameKeys.refl (table : Option Hs) : SameKeys table table :=
  fun table present => ⟨table, present, fun _ => rfl⟩

theorem SameKeys.trans {first second third : Option Hs} (left : SameKeys first second)
    (right : SameKeys second third) : SameKeys first third := by
  intro table present
  obtain ⟨table', present', keys⟩ := left table present
  obtain ⟨table'', present'', keys'⟩ := right table' present'
  exact ⟨table'', present'', fun name => (keys' name).trans (keys name)⟩

theorem SameKeys.put {table : Hs} {name : Name} {info info' : VarInfo}
    (found : table.get name = some info) (kind : info'.kind = info.kind) :
    SameKeys (some table) (some (table.put name info')) := by
  intro table' present
  cases present
  refine ⟨_, rfl, fun other => ?_⟩
  rw [Hs.get_put]
  split
  case isTrue same =>
    have equal : table.get other = table.get name := by rw [Hs.get, Hs.get, same]
    rw [equal, found]
    simp [kind]
  case isFalse => rfl

/-- The sets a phrase changes: its own from `lo` up to `hi`, entries of the set
of the scope it stands in, and entries of the label table. -/
structure Changed (own lableTab lo hi : Nat) (before after : HsHeap) : Prop where
  kept : ∀ id : Nat, id ≠ own → id ≠ lableTab → id < lo ∨ hi ≤ id →
    after.sets id = before.sets id
  own_keys : SameKeys (before.sets own) (after.sets own)
  lable_keys : SameKeys (before.sets lableTab) (after.sets lableTab)

theorem Changed.refl (own lableTab lo hi : Nat) (heap : HsHeap) :
    Changed own lableTab lo hi heap heap :=
  ⟨fun _ _ _ _ => rfl, .refl _, .refl _⟩

theorem Changed.trans {own lableTab lo mid hi : Nat} {first second third : HsHeap}
    (left : Changed own lableTab lo mid first second)
    (right : Changed own lableTab mid hi second third) (low : lo ≤ mid) (high : mid ≤ hi) :
    Changed own lableTab lo hi first third where
  kept id notOwn notLable outside := by
    rw [right.kept id notOwn notLable (by omega), left.kept id notOwn notLable (by omega)]
  own_keys := left.own_keys.trans right.own_keys
  lable_keys := left.lable_keys.trans right.lable_keys

/-- The sets of a scope are older than `lo`, different, and not the label table. -/
structure Placed (scope : List Nat) (lableTab lo : Nat) : Prop where
  below : ∀ id ∈ scope, id < lo
  nodup : scope.Nodup
  lable_lt : lableTab < lo
  apart : lableTab ∉ scope

theorem Placed.mono {scope : List Nat} {lableTab lo mid : Nat} (placed : Placed scope lableTab lo)
    (le : lo ≤ mid) : Placed scope lableTab mid :=
  ⟨fun id member => Nat.lt_of_lt_of_le (placed.below id member) le, placed.nodup,
    Nat.lt_of_lt_of_le placed.lable_lt le, placed.apart⟩

theorem Placed.inner {scope : List Nat} {lableTab lo : Nat} (placed : Placed scope lableTab lo) :
    Placed (lo :: scope) lableTab (lo + 1) where
  below id member := by
    obtain rfl | member := List.mem_cons.mp member
    · exact Nat.lt_succ_self _
    · exact Nat.lt_succ_of_lt (placed.below id member)
  nodup := List.nodup_cons.mpr ⟨fun member => Nat.lt_irrefl _ (placed.below lo member),
    placed.nodup⟩
  lable_lt := Nat.lt_succ_of_lt placed.lable_lt
  apart member := by
    obtain same | member := List.mem_cons.mp member
    · exact Nat.ne_of_lt placed.lable_lt same
    · exact placed.apart member

/-- The variables that a phrase declares are in the set of its scope. -/
def OwnAutos (heap : HsHeap) (own : Nat) (names : List CStr) : Prop :=
  ∀ name, some name ∈ names → ∃ table info, heap.sets own = some table ∧
    table.get name = some info ∧ info.kind = .autoVar

/-- The label table is there, and the labels in it are declared. -/
def LablesKnown (heap : HsHeap) (lableTab : Nat) (declared : CStr → Prop) : Prop :=
  ∃ table, heap.sets lableTab = some table ∧
    ∀ name info, table.get name = some info → declared (some name)

theorem LablesKnown.later {before after : HsHeap} {lableTab : Nat} {declared : CStr → Prop}
    (known : LablesKnown before lableTab declared)
    (keys : SameKeys (before.sets lableTab) (after.sets lableTab)) :
    LablesKnown after lableTab declared := by
  obtain ⟨table, present, names⟩ := known
  obtain ⟨table', present', same⟩ := keys table present
  refine ⟨table', present', fun name info' found' => ?_⟩
  have entry := same name
  rw [found'] at entry
  cases found : table.get name with
  | none => simp [found] at entry
  | some info => exact names name info found

theorem OwnAutos.later {before after : HsHeap} {own : Nat} {names : List CStr}
    (autos : OwnAutos before own names) (keys : SameKeys (before.sets own) (after.sets own)) :
    OwnAutos after own names := by
  intro name member
  obtain ⟨table, info, present, found, kind⟩ := autos name member
  obtain ⟨table', present', same⟩ := keys table present
  have entry := same name
  rw [found] at entry
  cases found' : table'.get name with
  | none => simp [found'] at entry
  | some info' =>
      simp only [found', Option.map_some, Option.some.injEq] at entry
      exact ⟨table', info', present', found', entry.trans kind⟩

theorem lookup_congr {heap heap' : HsHeap} {scope : List Nat}
    (same : ∀ id ∈ scope, heap'.sets id = heap.sets id) (name : CStr) :
    heap'.lookup scope name = heap.lookup scope name := by
  induction scope with
  | nil => rfl
  | cons id parent ih =>
      simp only [HsHeap.lookup]
      rw [same id List.mem_cons_self, ih fun id member => same id (List.mem_cons_of_mem _ member)]

private theorem lvalue?_congr {heap heap' : HsHeap} {scope : List Nat}
    (same : ∀ id ∈ scope, heap'.sets id = heap.sets id) :
    heap'.lvalue? scope = heap.lvalue? scope := by
  funext name
  rw [HsHeap.lvalue?, HsHeap.lvalue?, lookup_congr same]

/-- What is known where the code of a phrase is generated. -/
structure Ready (declared : CStr → Prop) (scope : List Nat) (own lo : Nat)
    (phrase : ScopePhrase) (ir : Ir) : Prop where
  placed : Placed scope ir.tLableTab lo
  innermost : ∃ parent, scope = own :: parent
  known : LablesKnown ir.heap ir.tLableTab declared
  autos : OwnAutos ir.heap own phrase.autos

theorem Ready.own_mem {declared : CStr → Prop} {scope : List Nat} {own lo : Nat}
    {phrase : ScopePhrase} {ir : Ir} (ready : Ready declared scope own lo phrase ir) :
    own ∈ scope := by
  obtain ⟨parent, rfl⟩ := ready.innermost
  exact List.mem_cons_self

/-- A run of the generator on a phrase, and what it amounts to. -/
structure Generated (declared : CStr → Prop) (scope : List Nat) (own lo hi endLable : Nat)
    (phrase : ScopePhrase) (ir final : Ir) (trail trail' : Trail)
    (code : List (IrNode × List Nat)) : Prop where
  generates : Generates declared endLable phrase (ir.genState scope trail) code
    (final.genState scope trail')
  nodes : final.nodes = ir.nodes ++ code.map Prod.fst
  changed : Changed own ir.tLableTab lo hi ir.heap final.heap
  lableTab : final.tLableTab = ir.tLableTab

/-! Declarations, labels and blocks. -/

section Statements

variable {declared : CStr → Prop} {scope : List Nat} {own lo hi endLable : Nat} {ir final : Ir}
  {trail : Trail}

/-- An expression changes no set. -/
theorem Generated.of_append {phrase : ScopePhrase} {code : List IrNode} {t : Nat}
    (generates : Generates declared endLable phrase (ir.genState scope trail)
      (mark trail.held code) { ir.genState scope trail with temps := t }) :
    Generated declared scope own lo hi endLable phrase ir (ir.append code t) trail trail
      (mark trail.held code) :=
  ⟨generates, by simp [Ir.append], .refl _ _ _ _ _, rfl⟩

theorem lookup_own {heap : HsHeap} {parent : List Nat} {name : Name} {table : Hs}
    {info : VarInfo} (present : heap.sets own = some table) (found : table.get name = some info) :
    heap.lookup (own :: parent) (some name) = some (own, info) := by
  simp [HsHeap.lookup, present, found]

/-- Giving a variable of the innermost scope its storage binds its name. -/
private theorem lvalue?_write {heap : HsHeap} {parent : List Nat} {table : Hs} (name : Name)
    {info : VarInfo} {t : Nat} (present : heap.sets own = some table) (fresh : own ∉ parent)
    (kind : info.kind = .autoVar) (positive : t ≠ 0) :
    (heap.write own (table.put name { info with tempDest := t })).lvalue? (own :: parent) =
      Vars.bind (heap.lvalue? (own :: parent)) (some name) (.local_ t) := by
  have others : (heap.write own (table.put name { info with tempDest := t })).lvalue? parent =
      heap.lvalue? parent :=
    lvalue?_congr fun id member =>
      heap.write_of_ne _ fun same => fresh (same ▸ member)
  funext other
  have rest := congrFun others other
  cases other with
  | none =>
      simp only [HsHeap.lvalue?, HsHeap.lookup, HsHeap.write_self, present, Vars.bind,
        SameName] at rest ⊢
      simpa using rest
  | some other =>
      simp only [HsHeap.lvalue?, HsHeap.lookup, HsHeap.write_self, present, Vars.bind, SameName,
        Option.bind_some, Hs.get_put, Option.map_some, Option.some.injEq] at rest ⊢
      by_cases same : cstr other = cstr name
      · simp [same, VarInfo.lvalue?, kind, positive]
      · simp only [same, if_false]
        cases table.get other with
        | some entry => rfl
        | none => exact rest

private theorem lableNumber_write (heap : HsHeap) {id lableTab : Nat} (table : Hs)
    (apart : lableTab ≠ id) :
    (heap.write id table).lableNumber lableTab = heap.lableNumber lableTab := by
  funext name
  rw [HsHeap.lableNumber, HsHeap.lableNumber, heap.write_of_ne table apart]

private theorem lableNumber_put {heap : HsHeap} {id n : Nat} {table : Hs} (name : Name) (info : VarInfo)
    (present : heap.sets id = some table) (positive : n ≠ 0) :
    (heap.write id (table.put name { info with tempDest := n })).lableNumber id =
      fun other => if SameName other (some name) then some n else heap.lableNumber id other := by
  funext other
  cases other with
  | none => simp [HsHeap.lableNumber, SameName]
  | some other =>
      by_cases same : cstr other = cstr name <;>
        simp [HsHeap.lableNumber, SameName, Hs.get_put, present, same, positive]

/-- Storing an entry under a name that was there with the same kind. -/
theorem Changed.write {heap : HsHeap} {lableTab id : Nat} {table : Hs} {name : Name}
    {info info' : VarInfo} (present : heap.sets id = some table)
    (found : table.get name = some info) (kind : info'.kind = info.kind)
    (either : id = own ∨ id = lableTab) :
    Changed own lableTab lo lo heap (heap.write id (table.put name info')) := by
  have keys : ∀ other, SameKeys (heap.sets other)
      ((heap.write id (table.put name info')).sets other) := by
    intro other
    by_cases same : other = id
    · subst same
      rw [present, HsHeap.write_self]
      exact .put found kind
    · rw [heap.write_of_ne _ same]
      exact .refl _
  refine ⟨fun other notOwn notLable _ => heap.write_of_ne _ ?_, keys own, keys lableTab⟩
  rintro rfl
  exact either.elim notOwn notLable

private theorem irAutoS_generated (trail : Trail) {parent : List Nat} {name : Name} {size : Nat} {u : Unit}
    (ready : Ready declared (own :: parent) own lo (.stmt (.auto (some name) size)) ir)
    (accepted : irAutoS (some name) (own :: parent) ir = .ok u final) :
    ∃ code trail', Generated declared (own :: parent) own lo lo endLable
      (.stmt (.auto (some name) size)) ir final trail trail' code := by
  obtain ⟨found, middle, looked, rest⟩ := bind_eq_ok.mp accepted
  obtain ⟨rfl, found_eq⟩ := lookupSymbol_ok looked
  obtain ⟨table, info, present, entry, kind⟩ :=
    ready.autos name (by simp [ScopePhrase.autos, autoNames])
  rw [lookup_own present entry] at found_eq
  subst found_eq
  change (emitOp .alloc 0 0 >>= setTempDest own (some name) info) middle = _ at rest
  rw [bind_run_of_ok (emitOp_run _ _ _ _)] at rest
  simp only [setTempDest, bind_run, get_run, Ir.append_heap, present, modify_run,
    EStateM.Result.ok.injEq] at rest
  obtain ⟨-, rfl⟩ := rest
  have fresh : own ∉ parent := (List.nodup_cons.mp ready.placed.nodup).1
  have apart : middle.tLableTab ≠ own := fun same => ready.placed.apart (same ▸ List.mem_cons_self)
  refine ⟨mark trail.held [.operation (middle.tempC + 1) .alloc 0 0],
    { trail with held := (middle.tempC + 1) :: trail.held }, ?_, by simp [Ir.append],
    .write present entry rfl (.inl rfl), rfl⟩
  have bound := lvalue?_write name present fresh kind (Nat.succ_ne_zero middle.tempC)
  have numbers := lableNumber_write middle.heap
    (table.put name { info with tempDest := middle.tempC + 1 }) apart
  have state : Ir.genState
      { middle.append [.operation (middle.tempC + 1) .alloc 0 0] (middle.tempC + 1) with
        heap := middle.heap.write own
          (table.put name { info with tempDest := middle.tempC + 1 }) }
      (own :: parent) { trail with held := (middle.tempC + 1) :: trail.held } =
        { middle.genState (own :: parent) trail with
          temps := middle.tempC + 1
          held := (middle.tempC + 1) :: trail.held
          vars := (middle.genState (own :: parent) trail).vars.bind (some name)
            (.local_ (middle.tempC + 1)) } := by
    simp only [Ir.genState, Ir.append, bound, numbers]
  rw [state]
  exact .auto

/-- Numbering a label at its first use. -/
private theorem irNamedLable_ok (own : Nat) (trail : Trail) {name : CStr} {id : Nat} (placed : Placed scope ir.tLableTab lo)
    (known : LablesKnown ir.heap ir.tLableTab declared)
    (accepted : irNamedLable name ir = .ok id final) :
    declared name ∧ id = ((ir.genState scope trail).number name).1 ∧
      final.genState scope trail = ((ir.genState scope trail).number name).2 ∧
      final.nodes = ir.nodes ∧ final.tLableTab = ir.tLableTab ∧
      Changed own ir.tLableTab lo lo ir.heap final.heap := by
  obtain ⟨table, present, names⟩ := known
  obtain ⟨_, _, got, accepted⟩ := bind_eq_ok.mp accepted
  cases got
  obtain ⟨entry, middle, read, rest⟩ := bind_eq_ok.mp accepted
  simp only [readHashSet, bind_run, get_run, present] at read
  cases name with
  | none => cases read
  | some name =>
      cases read
      cases found : table.get name with
      | none =>
          rw [found] at rest
          exact absurd rest irFatal_ne_ok
      | some info =>
          rw [found] at rest
          dsimp only at rest
          have number : (ir.genState scope trail).named (some name) =
              if info.tempDest = 0 then none else some info.tempDest := by
            simp [Ir.genState, HsHeap.lableNumber, present, found]
          refine ⟨names name info found, ?_⟩
          by_cases unset : info.tempDest = 0
          · rw [if_pos unset, bind_run_of_ok (show newLable _ = .ok _ _ from rfl)] at rest
            rw [if_pos unset] at number
            simp only [setTempDest, bind_run, get_run, present, modify_run, pure_run,
              EStateM.Result.ok.injEq] at rest
            obtain ⟨rfl, rfl⟩ := rest
            have vars : (ir.heap.write ir.tLableTab
                (table.put name { info with tempDest := ir.lableC + 1 })).lvalue? scope =
                  ir.heap.lvalue? scope :=
              lvalue?_congr fun id member =>
                ir.heap.write_of_ne _ fun same => placed.apart (same ▸ member)
            have numbers := lableNumber_put name info present (Nat.succ_ne_zero ir.lableC)
            simp only [GenState.number, number]
            refine ⟨rfl, ?_, trivial, trivial, .write present found rfl (.inr rfl)⟩
            simp only [Ir.genState, vars, numbers]
          · rw [if_neg unset] at rest number
            cases rest
            simp only [GenState.number, number]
            exact ⟨trivial, trivial, trivial, trivial, .refl _ _ _ _ _⟩

/-- At the start of a block its variables have no storage yet. -/
private theorem lvalue?_enter {heap : HsHeap} {lo : Nat} {names : List CStr}
    (declares : heap.Declares lo autoInfo names) :
    heap.lvalue? (lo :: scope) = Vars.hide (heap.lvalue? scope) names := by
  obtain ⟨table, present, entries⟩ := declares
  funext name
  cases name with
  | none =>
      have absent : ¬ Names names none := fun ⟨_, _, string, _⟩ => nomatch string
      simp [Vars.hide, HsHeap.lvalue?, HsHeap.lookup, absent]
  | some name =>
      by_cases declared : Names names (some name) <;>
        simp [Vars.hide, HsHeap.lvalue?, HsHeap.lookup, present, entries, declared,
          VarInfo.lvalue?, autoInfo]

/-- The set of a block that is freed at its end was not one of the sets around it. -/
theorem Generated.block {body : List AstNode} {middle : Ir} {code : List (IrNode × List Nat)}
    {trail' : Trail} (ready : Ready declared scope own lo (.block ⟨lo, scope⟩ body) ir)
    (declares : ir.heap.Declares lo autoInfo (autoNames body)) (ordered : lo + 1 ≤ hi)
    (inner : Generated declared (lo :: scope) lo (lo + 1) hi endLable (.stmts body) ir middle
      trail trail' code) :
    Generated declared scope own lo hi endLable (.block ⟨lo, scope⟩ body) ir
      { middle with heap := middle.heap.free lo } trail { trail' with held := trail.held }
      code := by
  obtain ⟨generates, nodes, changed, lableTab⟩ := inner
  have placed := ready.placed
  have outside : ∀ id : Nat, id < lo → id ≠ ir.tLableTab →
      (middle.heap.free lo).sets id = ir.heap.sets id := fun id old notLable => by
    rw [middle.heap.free_of_ne (Nat.ne_of_lt old),
      changed.kept id (Nat.ne_of_lt old) notLable (.inl (Nat.lt_succ_of_lt old))]
  have around : (middle.heap.free lo).lvalue? scope = ir.heap.lvalue? scope :=
    lvalue?_congr fun id member =>
      outside id (placed.below id member) fun same => placed.apart (same ▸ member)
  have lableKept : (middle.heap.free lo).sets ir.tLableTab = middle.heap.sets ir.tLableTab :=
    middle.heap.free_of_ne (Nat.ne_of_lt placed.lable_lt)
  refine ⟨?_, nodes, ?_, lableTab⟩
  · have start : ir.genState (lo :: scope) trail =
        { ir.genState scope trail with
          vars := (ir.genState scope trail).vars.hide (autoNames body) } := by
      simp only [Ir.genState, lvalue?_enter declares]
    rw [start] at generates
    have numbers : (middle.heap.free lo).lableNumber ir.tLableTab =
        middle.heap.lableNumber ir.tLableTab := by
      funext name
      rw [HsHeap.lableNumber, HsHeap.lableNumber, lableKept]
    have finish : Ir.genState { middle with heap := middle.heap.free lo } scope
        { trail' with held := trail.held } =
          { middle.genState (lo :: scope) trail' with
            vars := (ir.genState scope trail).vars
            held := trail.held } := by
      simp only [Ir.genState, around, lableTab, numbers]
    rw [finish]
    exact .block generates
  · refine ⟨fun id notOwn notLable outside' => ?_, ?_, ?_⟩
    · have notLo : id ≠ lo := by omega
      change (middle.heap.free lo).sets id = _
      rw [middle.heap.free_of_ne notLo, changed.kept id notLo notLable (by omega)]
    · have ownKept : (middle.heap.free lo).sets own = ir.heap.sets own :=
        outside own (placed.below own ready.own_mem) fun same =>
          placed.apart (same ▸ ready.own_mem)
      change SameKeys _ ((middle.heap.free lo).sets own)
      rw [ownKept]
      exact .refl _
    · change SameKeys _ ((middle.heap.free lo).sets ir.tLableTab)
      rw [lableKept]
      exact changed.lable_keys

/-! All phrases, by induction on the tree that the parser has built. -/

/-- The generator handles every accepted occurrence of the phrase in the scope. -/
def Handles (declared : CStr → Prop) (heap : HsHeap) (phrase : ScopePhrase) (scope : List Nat)
    (lo hi : Nat) : Prop :=
  ∀ (endLable trail) {own ir final u}, Ready declared scope own lo phrase ir →
    (∀ id : Nat, lo ≤ id → id < hi → ir.heap.sets id = heap.sets id) →
    irPhrase endLable scope phrase ir = .ok u final →
    ∃ code trail', Generated declared scope own lo hi endLable phrase ir final trail trail' code

/-- A later phrase of the same scope, after a run that changed the sets up to `mid`. -/
theorem Ready.later {phrase phrase' : ScopePhrase} {mid : Nat} {middle : Ir}
    (ready : Ready declared scope own lo phrase ir)
    (changed : Changed own ir.tLableTab lo mid ir.heap middle.heap)
    (lableTab : middle.tLableTab = ir.tLableTab) (ordered : lo ≤ mid)
    (autos : ∀ name, name ∈ phrase'.autos → name ∈ phrase.autos) :
    Ready declared scope own mid phrase' middle where
  placed := lableTab ▸ ready.placed.mono ordered
  innermost := ready.innermost
  known := lableTab ▸ ready.known.later changed.lable_keys
  autos name member := (ready.autos.later changed.own_keys) name (autos _ member)

/-- The context for a phrase without declarations, when no set has changed. -/
theorem Ready.same {phrase phrase' : ScopePhrase} {ir' : Ir}
    (ready : Ready declared scope own lo phrase ir) (heap : ir'.heap = ir.heap)
    (lableTab : ir'.tLableTab = ir.tLableTab) (autos : phrase'.autos = []) :
    Ready declared scope own lo phrase' ir' where
  placed := lableTab ▸ ready.placed
  innermost := ready.innermost
  known := by rw [heap, lableTab]; exact ready.known
  autos name member := by rw [autos] at member; cases member

theorem agree_later {heap : HsHeap} {mid : Nat} {phrase : ScopePhrase} {middle : Ir}
    (ready : Ready declared scope own lo phrase ir)
    (changed : Changed own ir.tLableTab lo mid ir.heap middle.heap) (ordered : lo ≤ mid)
    (agree : ∀ id : Nat, lo ≤ id → id < hi → ir.heap.sets id = heap.sets id) :
    ∀ id : Nat, mid ≤ id → id < hi → middle.heap.sets id = heap.sets id := by
  intro id lower upper
  have own_lt := ready.placed.below own ready.own_mem
  have lable_lt := ready.placed.lable_lt
  rw [changed.kept id (by omega) (by omega) (.inr lower), agree id (by omega) upper]

/-- The next `count` labels. -/
def Ir.label (ir : Ir) (count : Nat) : Ir := { ir with lableC := ir.lableC + count }

/-- Nodes that write no temporary. -/
def Ir.add (ir : Ir) (code : List IrNode) : Ir := ir.append code ir.tempC

/-- What an accepted `irIfWith` has run: the condition, the body and the rest of the chain. -/
theorem irIfWith_ok {condition : AstNode} {scope : List Nat} {endLabelId : Nat}
    {body chain : IrM Unit} {ir final : Ir}
    (accepted : irIfWith condition scope endLabelId body chain ir = .ok () final) :
    ∃ t ir' ir'', irExprF condition scope (ir.label 2) = .ok t ir' ∧
      body ((ir'.add [.branch (ir.lableC + 1) (ir.lableC + 2) t]).add [.label (ir.lableC + 1)]) =
        .ok () ir'' ∧
      chain ((ir''.add [.jump endLabelId]).add [.label (ir.lableC + 2)]) = .ok () final := by
  obtain ⟨_, _, counted, accepted⟩ := bind_eq_ok.mp accepted
  cases counted
  obtain ⟨_, _, counted, accepted⟩ := bind_eq_ok.mp accepted
  cases counted
  obtain ⟨t, ir', lowered, accepted⟩ := bind_eq_ok.mp accepted
  obtain ⟨_, _, added, accepted⟩ := bind_eq_ok.mp accepted
  cases added
  obtain ⟨_, _, added, accepted⟩ := bind_eq_ok.mp accepted
  cases added
  obtain ⟨_, ir'', bodyRun, accepted⟩ := bind_eq_ok.mp accepted
  obtain ⟨_, _, added, accepted⟩ := bind_eq_ok.mp accepted
  cases added
  obtain ⟨_, _, added, accepted⟩ := bind_eq_ok.mp accepted
  cases added
  exact ⟨t, ir', ir'', lowered, bodyRun, accepted⟩

theorem irWhileWith_ok {condition : AstNode} {scope : List Nat} {body : IrM Unit} {ir final : Ir}
    (accepted : irWhileWith condition scope body ir = .ok () final) :
    ∃ t ir' ir'', irExprF condition scope ((ir.label 3).add [.label (ir.lableC + 1)]) = .ok t ir' ∧
      body ((ir'.add [.branch (ir.lableC + 2) (ir.lableC + 3) t]).add [.label (ir.lableC + 2)]) =
        .ok () ir'' ∧
      final = (ir''.add [.jump (ir.lableC + 1)]).add [.label (ir.lableC + 3)] := by
  obtain ⟨_, _, counted, accepted⟩ := bind_eq_ok.mp accepted
  cases counted
  obtain ⟨_, _, counted, accepted⟩ := bind_eq_ok.mp accepted
  cases counted
  obtain ⟨_, _, counted, accepted⟩ := bind_eq_ok.mp accepted
  cases counted
  obtain ⟨_, _, added, accepted⟩ := bind_eq_ok.mp accepted
  cases added
  obtain ⟨t, ir', lowered, accepted⟩ := bind_eq_ok.mp accepted
  obtain ⟨_, _, added, accepted⟩ := bind_eq_ok.mp accepted
  cases added
  obtain ⟨_, _, added, accepted⟩ := bind_eq_ok.mp accepted
  cases added
  obtain ⟨_, ir'', bodyRun, accepted⟩ := bind_eq_ok.mp accepted
  obtain ⟨_, _, added, accepted⟩ := bind_eq_ok.mp accepted
  cases added
  cases accepted
  exact ⟨t, ir', ir'', lowered, bodyRun, rfl⟩

private theorem irIfWith_generated (trail : Trail) {heap : HsHeap} {mid : Nat} {phrase : ScopePhrase}
    {condition : AstNode} {scopeN : AstScope} {body : List AstNode} {chain : Option AstNode}
    {u : Unit} (bodyHandled : Handles declared heap (.block scopeN body) scope lo mid)
    (chainHandled : Handles declared heap (.chain chain) scope mid hi)
    (low : lo ≤ mid) (high : mid ≤ hi) (ready : Ready declared scope own lo phrase ir)
    (agree : ∀ id : Nat, lo ≤ id → id < hi → ir.heap.sets id = heap.sets id)
    (accepted : irIfWith condition scope endLable (irBody (.scope scopeN body))
      (irChain chain scope endLable) ir = .ok u final) :
    ∃ code trail', Generated declared scope own lo hi endLable
      (.chain (some (.elseIf condition (.scope scopeN body) chain))) ir final trail trail' code := by
  obtain ⟨c, _, middle, lowered, bodyRun, chainRun⟩ := irIfWith_ok accepted
  obtain ⟨conditionCode, t, conditionLowers, rfl⟩ := irExprF_lowers condition lowered
  have bodyReady : Ready declared scope own lo (.block scopeN body)
      ((((ir.label 2).append conditionCode t).add
        [.branch (ir.lableC + 1) (ir.lableC + 2) c]).add [.label (ir.lableC + 1)]) :=
    ready.same rfl rfl rfl
  obtain ⟨bodyCode, trail₁, bodyGenerated⟩ := bodyHandled endLable
    (trail.make (ir.lableC + 1) 2) bodyReady
    (fun id lower upper => agree id lower (Nat.lt_of_lt_of_le upper high)) bodyRun
  obtain ⟨bodyGenerates, bodyNodes, bodyChanged, bodyTab⟩ := bodyGenerated
  have chainReady : Ready declared scope own mid (.chain chain)
      ((middle.add [.jump endLable]).add [.label (ir.lableC + 2)]) :=
    ready.later bodyChanged bodyTab low nofun
  obtain ⟨chainCode, trail₂, chainGenerates, chainNodes, chainChanged, chainTab⟩ :=
    chainHandled endLable trail₁ chainReady
      (agree_later ready bodyChanged low agree) chainRun
  have tabs : middle.tLableTab = ir.tLableTab := bodyTab
  refine ⟨_, trail₂, .elseIf conditionLowers bodyGenerates chainGenerates, ?_, ?_,
    chainTab.trans tabs⟩
  · simp [chainNodes, Ir.append, Ir.add, Ir.label, bodyNodes, Ir.genState]
  · change Changed own middle.tLableTab mid hi middle.heap final.heap at chainChanged
    rw [tabs] at chainChanged
    exact Changed.trans bodyChanged chainChanged low high

private theorem irWhileWith_generated (trail : Trail) {heap : HsHeap} {phrase : ScopePhrase}
    {condition : AstNode} {scopeN : AstScope} {body : List AstNode}
    {u : Unit} (bodyHandled : Handles declared heap (.block scopeN body) scope lo hi)
    (ready : Ready declared scope own lo phrase ir)
    (agree : ∀ id : Nat, lo ≤ id → id < hi → ir.heap.sets id = heap.sets id)
    (accepted : irWhileWith condition scope (irBody (.scope scopeN body)) ir = .ok u final) :
    ∃ code trail', Generated declared scope own lo hi endLable
      (.stmt (.while_ condition (.scope scopeN body))) ir final trail trail' code := by
  obtain ⟨c, _, middle, lowered, bodyRun, rfl⟩ := irWhileWith_ok accepted
  obtain ⟨conditionCode, t, conditionLowers, rfl⟩ := irExprF_lowers condition lowered
  have bodyReady : Ready declared scope own lo (.block scopeN body)
      (((((ir.label 3).add [.label (ir.lableC + 1)]).append conditionCode t).add
        [.branch (ir.lableC + 2) (ir.lableC + 3) c]).add [.label (ir.lableC + 2)]) :=
    ready.same rfl rfl rfl
  obtain ⟨bodyCode, trail₁, bodyGenerates, bodyNodes, bodyChanged, bodyTab⟩ :=
    bodyHandled endLable (trail.make (ir.lableC + 1) 3) bodyReady agree bodyRun
  refine ⟨_, trail₁, .while_ conditionLowers bodyGenerates, ?_, bodyChanged, bodyTab⟩
  simp [Ir.append, Ir.add, Ir.label, bodyNodes, Ir.genState]

theorem Ready.first {node : AstNode} {nodes : List AstNode}
    (ready : Ready declared scope own lo (.stmts (node :: nodes)) ir) :
    Ready declared scope own lo (.stmt node) ir where
  placed := ready.placed
  innermost := ready.innermost
  known := ready.known
  autos name member := ready.autos name (by
    change some name ∈ autoNames ([node] ++ nodes)
    rw [autoNames_append]
    exact List.mem_append_left _ member)

theorem Ready.rest_autos {node : AstNode} {nodes : List AstNode} {name : CStr}
    (_ready : Ready declared scope own lo (.stmts (node :: nodes)) ir)
    (member : name ∈ (ScopePhrase.stmts nodes).autos) :
    name ∈ (ScopePhrase.stmts (node :: nodes)).autos := by
  change name ∈ autoNames ([node] ++ nodes)
  rw [autoNames_append]
  exact List.mem_append_right _ member

theorem freeHashSet_ok {id : Nat} {u : Unit} (accepted : freeHashSet id ir = .ok u final) :
    final = { ir with heap := ir.heap.free id } := by
  obtain ⟨_, _, got, accepted⟩ := bind_eq_ok.mp accepted
  cases got
  cases present : ir.heap.sets id with
  | none =>
      rw [present] at accepted
      cases accepted
  | some table =>
      rw [present] at accepted
      cases accepted
      rfl

theorem ownAutos_of_declares {heap : HsHeap} {names : List CStr}
    (declares : heap.Declares own autoInfo names) : OwnAutos heap own names := by
  intro name member
  obtain ⟨table, present, entries⟩ := declares
  have found : Names names (some name) := ⟨some name, member, rfl, rfl⟩
  exact ⟨table, autoInfo, present, by rw [entries, if_pos found], rfl⟩

theorem built_handles {heap : HsHeap} {phrase : ScopePhrase}
    (built : Built heap phrase scope lo hi) : Handles declared heap phrase scope lo hi := by
  induction built with
  | return_ =>
      intro endLable trail own ir final u ready agree accepted
      obtain ⟨t, _, lowered, accepted⟩ := bind_eq_ok.mp accepted
      obtain ⟨code, tempC, lowers, rfl⟩ := irExprF_lowers _ lowered
      obtain rfl : final = ir.append (code ++ [.ret t]) tempC := by
        cases accepted
        simp [Ir.append]
      exact ⟨_, trail, .of_append (.return_ lowers)⟩
  | expr =>
      intro endLable trail own ir final u ready agree accepted
      obtain ⟨t, lowered⟩ := discard_eq_ok.mp accepted
      obtain ⟨code, tempC, lowers, rfl⟩ := irExprF_lowers _ lowered
      exact ⟨_, trail, .of_append (.expr lowers)⟩
  | @goto name scope lo =>
      intro endLable trail own ir final u ready agree accepted
      obtain ⟨id, middle, numbered, accepted⟩ := bind_eq_ok.mp accepted
      cases accepted
      obtain ⟨known, rfl, state, nodes, tab, changed⟩ :=
        irNamedLable_ok own trail ready.placed ready.known numbered
      refine ⟨mark trail.held [.jump _], trail, ?_, by rw [← nodes]; rfl, changed,
        tab⟩
      exact state ▸ Generates.goto known
  | @lable name scope lo =>
      intro endLable trail own ir final u ready agree accepted
      obtain ⟨id, middle, numbered, accepted⟩ := bind_eq_ok.mp accepted
      cases accepted
      obtain ⟨known, rfl, state, nodes, tab, changed⟩ :=
        irNamedLable_ok own trail ready.placed ready.known numbered
      refine ⟨mark trail.held [.label _], trail, ?_, by rw [← nodes]; rfl, changed,
        tab⟩
      exact state ▸ Generates.lable known
  | extrn =>
      intro endLable trail own ir final u ready agree accepted
      cases accepted
      exact ⟨[], trail, .extrn, by simp, .refl _ _ _ _ _, rfl⟩
  | auto =>
      intro endLable trail own ir final u ready agree accepted
      obtain ⟨parent, rfl⟩ := ready.innermost
      exact irAutoS_generated trail ready accepted
  | scope block ih =>
      intro endLable trail own ir final u ready agree accepted
      obtain ⟨code, trail', generates, nodes, changed, tab⟩ :=
        ih endLable trail (ready.same rfl rfl rfl) agree accepted
      exact ⟨code, trail', .scope generates, nodes, changed, tab⟩
  | if_ block chain blockIH chainIH =>
      intro endLable trail own ir final u ready agree accepted
      obtain ⟨scope', _, parent, accepted⟩ := bind_eq_ok.mp accepted
      obtain ⟨rfl⟩ := block.scopeN_eq
      cases parent
      obtain ⟨_, _, counted, accepted⟩ := bind_eq_ok.mp accepted
      cases counted
      obtain ⟨_, middle, chainRun, accepted⟩ := bind_eq_ok.mp accepted
      cases accepted
      obtain ⟨code, trail', generates, nodes, changed, tab⟩ :=
        irIfWith_generated (trail.make (ir.lableC + 1) 1) blockIH chainIH
          block.le chain.le (show Ready _ _ _ _ (.chain none) { ir with lableC := ir.lableC + 1 }
            from ready.same rfl rfl rfl) agree chainRun
      exact ⟨_, trail', .if_ generates, by simp [nodes, Ir.genState], changed, tab⟩
  | while_ block ih =>
      intro endLable trail own ir final u ready agree accepted
      obtain ⟨scope', _, parent, accepted⟩ := bind_eq_ok.mp accepted
      obtain ⟨rfl⟩ := block.scopeN_eq
      cases parent
      exact irWhileWith_generated trail ih ready agree accepted
  | nil =>
      intro endLable trail own ir final u ready agree accepted
      cases accepted
      exact ⟨[], trail, .nil, by simp, .refl _ _ _ _ _, rfl⟩
  | cons first rest firstIH restIH =>
      intro endLable trail own ir final u ready agree accepted
      obtain ⟨_, middle, firstRun, accepted⟩ := bind_eq_ok.mp accepted
      have low := first.le
      have high := rest.le
      have firstReady := Ready.first ready
      obtain ⟨code, trail₁, generates, nodes, changed, tab⟩ :=
        firstIH endLable trail firstReady
          (fun id lower upper => agree id lower (Nat.lt_of_lt_of_le upper high)) firstRun
      have restReady := ready.later changed tab low fun _ => ready.rest_autos
      obtain ⟨code', trail₂, generates', nodes', changed', tab'⟩ :=
        restIH endLable trail₁ restReady
          (agree_later ready changed low agree) accepted
      refine ⟨code ++ code', trail₂, .cons generates generates', by simp [nodes', nodes], ?_,
        tab'.trans tab⟩
      rw [tab] at changed'
      exact changed.trans changed' low high
  | @block body scope lo hi declares inner ih =>
      intro endLable trail own ir final u ready agree accepted
      obtain ⟨_, middle, bodyRun, freed⟩ := bind_eq_ok.mp accepted
      have ordered := inner.le
      have declares := declares.congr (agree lo (Nat.le_refl lo) (by omega))
      have innerReady : Ready declared (lo :: scope) lo (lo + 1) (.stmts body) ir :=
        ⟨ready.placed.inner, ⟨scope, rfl⟩, ready.known, ownAutos_of_declares declares⟩
      obtain ⟨code, trail', generated⟩ := ih endLable trail innerReady
        (fun id lower upper => agree id (Nat.le_of_succ_le lower) upper) bodyRun
      rw [freeHashSet_ok freed]
      exact ⟨code, _, generated.block ready declares ordered⟩
  | noChain =>
      intro endLable trail own ir final u ready agree accepted
      cases accepted
      exact ⟨[], trail, .noChain, by simp, .refl _ _ _ _ _, rfl⟩
  | elseIf block chain blockIH chainIH =>
      intro endLable trail own ir final u ready agree accepted
      exact irIfWith_generated trail blockIH chainIH block.le chain.le ready agree accepted
  | else_ block ih =>
      intro endLable trail own ir final u ready agree accepted
      obtain ⟨code, trail', generates, nodes, changed, tab⟩ :=
        ih endLable trail (ready.same rfl rfl rfl) agree accepted
      exact ⟨code, trail', .else_ generates, nodes, changed, tab⟩

end Statements

end Trident
