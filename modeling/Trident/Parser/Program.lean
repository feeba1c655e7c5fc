import Trident.Parser.Scopes

/-! The tables of a whole program: every function has sets of its own, which the
parser leaves as they are once the function has been read. -/

set_option autoImplicit false

namespace Trident

open Foundation

/-- The table of parameters gives each of them its number. -/
def HsHeap.ParamsIn (heap : HsHeap) (id : Nat) (params : Nat) : Prop :=
  ∃ table, heap.sets id = some table ∧ ∀ name info, table.get name = some info →
    info.kind = .autoVar ∧ 1 ≤ info.tempDest ∧ info.tempDest ≤ params

def HsHeap.GlobalsIn (heap : HsHeap) (id : Nat) : Prop :=
  ∃ table, heap.sets id = some table ∧ ∀ name info, table.get name = some info →
    info = { kind := .globalVar }

/-- The entry of a global variable. -/
def globalInfo : VarInfo := { kind := .globalVar }

/-- The globals and the functions of a program. -/
def globalNames (ast : List AstNode) : List CStr :=
  ast.filterMap fun node =>
    match node with
    | .global name _ => some name
    | _ => none

def functionNames (ast : List AstNode) : List CStr :=
  ast.filterMap fun node =>
    match node with
    | .function name _ _ _ _ => some name
    | _ => none

@[simp] theorem globalNames_append (first second : List AstNode) :
    globalNames (first ++ second) = globalNames first ++ globalNames second :=
  List.filterMap_append

theorem HsHeap.Declares.globals_in {heap : HsHeap} {id : Nat} {names : List CStr}
    (declares : heap.Declares id globalInfo names) : heap.GlobalsIn id := by
  obtain ⟨table, stored, entries⟩ := declares
  refine ⟨table, stored, fun name info found => ?_⟩
  rw [entries] at found
  split at found
  · cases found
    rfl
  · cases found

/-- A function with a braced body whose sets are those from `lo` up to `hi`. -/
structure FunctionBuilt (heap : HsHeap) (globalTable : Nat) (paramsTab lableTab : Nat)
    (params : Nat) (scopeN : AstScope) (body : List AstNode) (lo hi : Nat) : Prop where
  paramsTab_eq : paramsTab = lo
  lableTab_eq : lableTab = lo + 1
  params_in : heap.ParamsIn lo params
  lables_in : heap.Declares (lo + 1) lableInfo (lablesOf body)
  block : Built heap (.block scopeN body) [lo, globalTable] (lo + 2) hi

/-- The declarations of a program, with the sets from `lo` up to `hi`. -/
inductive ProgramBuilt (heap : HsHeap) (globalTable : Nat) : List AstNode → Nat → Nat → Prop where
  | nil {lo} : ProgramBuilt heap globalTable [] lo lo
  | function {name paramsTab lableTab params scopeN body nodes lo mid hi} :
      FunctionBuilt heap globalTable paramsTab lableTab params scopeN body lo mid →
      ProgramBuilt heap globalTable nodes mid hi →
      ProgramBuilt heap globalTable
        (.function name paramsTab lableTab params (.scope scopeN body) :: nodes) lo hi
  | unbraced {name paramsTab lableTab params body nodes lo mid hi} :
      body.kind ≠ .scope → body.kind ≠ .else_ → lo ≤ mid →
      ProgramBuilt heap globalTable nodes mid hi →
      ProgramBuilt heap globalTable
        (.function name paramsTab lableTab params body :: nodes) lo hi
  | global {name size nodes lo hi} :
      ProgramBuilt heap globalTable nodes lo hi →
      ProgramBuilt heap globalTable (.global name size :: nodes) lo hi
  | extrn {name nodes lo hi} :
      ProgramBuilt heap globalTable nodes lo hi →
      ProgramBuilt heap globalTable (.extrn name :: nodes) lo hi

theorem HsHeap.ParamsIn.congr {heap heap' : HsHeap} {id : Nat} {params : Nat}
    (params_in : heap.ParamsIn id params) (same : heap'.sets id = heap.sets id) :
    heap'.ParamsIn id params := by
  obtain ⟨table, stored, entries⟩ := params_in
  exact ⟨table, same.trans stored, entries⟩

theorem FunctionBuilt.congr {heap heap' : HsHeap} {globalTable paramsTab lableTab : Nat}
    {params : Nat} {scopeN : AstScope} {body : List AstNode} {lo hi : Nat}
    (built : FunctionBuilt heap globalTable paramsTab lableTab params scopeN body lo hi)
    (same : ∀ id : Nat, lo ≤ id → id < hi → heap'.sets id = heap.sets id) :
    FunctionBuilt heap' globalTable paramsTab lableTab params scopeN body lo hi := by
  have ordered := built.block.le
  exact ⟨built.paramsTab_eq, built.lableTab_eq,
    built.params_in.congr (same lo (Nat.le_refl lo) (by omega)),
    built.lables_in.congr (same (lo + 1) (by omega) (by omega)),
    built.block.congr fun id lower upper => same id (by omega) upper⟩

namespace ProgramBuilt

variable {heap heap' : HsHeap} {globalTable : Nat} {nodes first second : List AstNode}
  {lo mid hi : Nat}

theorem le (built : ProgramBuilt heap globalTable nodes lo hi) : lo ≤ hi := by
  induction built with
  | nil => exact Nat.le_refl _
  | function first _ ih =>
      have ordered := first.block.le
      omega
  | unbraced _ _ ordered _ ih => exact Nat.le_trans ordered ih
  | global _ ih => exact ih
  | extrn _ ih => exact ih

theorem congr (built : ProgramBuilt heap globalTable nodes lo hi)
    (same : ∀ id : Nat, lo ≤ id → id < hi → heap'.sets id = heap.sets id) :
    ProgramBuilt heap' globalTable nodes lo hi := by
  induction built with
  | nil => exact .nil
  | function first rest ih =>
      have ordered := first.block.le
      have later := rest.le
      exact .function (first.congr fun id lower upper => same id lower (by omega))
        (ih fun id lower upper => same id (by omega) upper)
  | unbraced notScope notElse ordered rest ih =>
      exact .unbraced notScope notElse ordered
        (ih fun id lower upper => same id (by omega) upper)
  | global _ ih => exact .global (ih same)
  | extrn _ ih => exact .extrn (ih same)

theorem append (left : ProgramBuilt heap globalTable first lo mid)
    (right : ProgramBuilt heap globalTable second mid hi) :
    ProgramBuilt heap globalTable (first ++ second) lo hi := by
  induction left with
  | nil => exact right
  | function built _ ih => exact .function built (ih right)
  | unbraced notScope notElse ordered _ ih => exact .unbraced notScope notElse ordered (ih right)
  | global _ ih => exact .global (ih right)
  | extrn _ ih => exact .extrn (ih right)

end ProgramBuilt

theorem ProgramBuilt.extrns {heap : HsHeap} {globalTable : Nat} {names : List CStr} {lo : Nat} :
    ProgramBuilt heap globalTable (names.map .extrn) lo lo := by
  induction names with
  | nil => exact .nil
  | cons name rest ih => exact .extrn ih

section Functions

variable {fuel : Nat} {p p' : Parser}

theorem HsHeap.ParamsIn.put {heap : HsHeap} {id : Nat} {params : Nat} {table : Hs} {name : Name}
    (params_in : heap.ParamsIn id params) (stored : heap.sets id = some table) :
    (heap.write id (table.put name ⟨.autoVar, params + 1⟩)).ParamsIn id (params + 1) := by
  obtain ⟨table', stored', entries⟩ := params_in
  obtain rfl : table' = table := by simpa [stored] using stored'.symm
  refine ⟨table'.put name ⟨.autoVar, params + 1⟩, by simp [HsHeap.write], ?_⟩
  intro other info found
  rw [Hs.get_put] at found
  split at found
  · cases found
    exact ⟨rfl, Nat.le_add_left 1 params, Nat.le_refl _⟩
  · obtain ⟨kind, lower, upper⟩ := entries other info found
    exact ⟨kind, lower, Nat.le_succ_of_le upper⟩

private theorem parseParams_ok {symtable : Nat} {count params : Nat}
    (params_in : p.heap.ParamsIn symtable count)
    (accepted : parseParams fuel symtable count p = .ok params p') :
    p'.heap.ParamsIn symtable params ∧
      (∀ id, id ≠ symtable → p'.heap.sets id = p.heap.sets id) ∧
      p'.heap.next = p.heap.next ∧ p'.globalTable = p.globalTable ∧ p'.ast = p.ast ∧
      p'.tLableTab = p.tLableTab := by
  induction fuel generalizing p count with
  | zero => cases accepted
  | succ fuel ih =>
      obtain ⟨token, p₁, read, accepted⟩ := bind_eq_ok.mp accepted
      have same := SameTables.tokField.of_ok read
      split at accepted
      · cases accepted
        obtain ⟨heap, table, ast, lables⟩ := same
        exact ⟨heap ▸ params_in, fun _ _ => by rw [heap], by rw [heap], table, ast, lables⟩
      · obtain ⟨token, p₂, read, accepted⟩ := bind_eq_ok.mp accepted
        obtain ⟨_, p₃, skipped, accepted⟩ := bind_eq_ok.mp accepted
        obtain ⟨_, p₄, stored, accepted⟩ := bind_eq_ok.mp accepted
        obtain ⟨comma, p₅, peeked, accepted⟩ := bind_eq_ok.mp accepted
        have same := (same.trans (SameTables.tokField.of_ok read)).trans
          (SameTables.skip.of_ok skipped)
        obtain ⟨name, table, named, present, rfl⟩ := putToHashSet_ok stored
        have same' := (SameTables.isKind _).of_ok peeked
        have rest : ∀ q, p₅.SameTables q →
            parseParams fuel symtable (count + 1) q = .ok params p' →
            p'.heap.ParamsIn symtable params ∧
              (∀ id, id ≠ symtable → p'.heap.sets id = p.heap.sets id) ∧
              p'.heap.next = p.heap.next ∧ p'.globalTable = p.globalTable ∧ p'.ast = p.ast ∧
              p'.tLableTab = p.tLableTab := by
          intro q later accepted
          obtain ⟨heap, table', ast, lables⟩ := same
          obtain ⟨heap', table'', ast', lables'⟩ := same'.trans later
          rw [heap] at present heap'
          have grown : q.heap.ParamsIn symtable (count + 1) := by
            rw [heap']
            exact params_in.put present
          obtain ⟨params_in', kept, next, global, ast'', lables''⟩ := ih grown accepted
          refine ⟨params_in', fun id other => ?_, ?_, global.trans (table''.trans table'),
            ast''.trans (ast'.trans ast), lables''.trans (lables'.trans lables)⟩
          · rw [kept id other, heap']
            exact Function.update_of_ne other ..
          · rw [next, heap']
            rfl
        cases comma with
        | false => exact rest p₅ ⟨rfl, rfl, rfl, rfl⟩ accepted
        | true =>
            obtain ⟨_, p₆, skipped, accepted⟩ := bind_eq_ok.mp accepted
            exact rest p₆ (SameTables.skip.of_ok skipped) accepted

private theorem emptyParams {heap : HsHeap} {id : Nat} (stored : heap.sets id = some {}) :
    heap.ParamsIn id 0 := ⟨{}, stored, fun name info found => by simp at found⟩

/-- A function is given new sets, and those made before it stay as they are. -/
private theorem parseFunctionS_ok {name : CStr} {node : AstNode}
    (accepted : parseFunctionS fuel name p = .ok node p') :
    ProgramBuilt p'.heap p.globalTable [node] p.heap.next p'.heap.next ∧
      (∀ id : Nat, id < p.heap.next → p'.heap.sets id = p.heap.sets id) ∧
      p'.globalTable = p.globalTable ∧ p'.ast = p.ast ∧ globalNames [node] = [] := by
  obtain ⟨symtable, p₁, made, accepted⟩ := bind_eq_ok.mp accepted
  cases made
  obtain ⟨lableTable, p₂, made, accepted⟩ := bind_eq_ok.mp accepted
  cases made
  obtain ⟨_, p₃, entered, accepted⟩ := bind_eq_ok.mp accepted
  cases entered
  obtain ⟨_, p₄, opened, accepted⟩ := bind_eq_ok.mp accepted
  obtain ⟨params, p₅, read, accepted⟩ := bind_eq_ok.mp accepted
  obtain ⟨_, p₆, closed, accepted⟩ := bind_eq_ok.mp accepted
  obtain ⟨_, p₇, got, accepted⟩ := bind_eq_ok.mp accepted
  cases got
  obtain ⟨⟨stmt, tail⟩, p₈, parsed, accepted⟩ := bind_eq_ok.mp accepted
  set lo : Nat := p.heap.next with lo_eq
  set made : HsHeap := p.heap.initHashSet.2.initHashSet.2 with made_eq
  have sets : ∀ id : Nat, id < lo → made.sets id = p.heap.sets id := fun id old => by
    have first := Function.update_of_ne (f := p.heap.initHashSet.2.sets)
      (Nat.ne_of_lt (Nat.lt_succ_of_lt old)) (some {})
    exact first.trans (Function.update_of_ne (Nat.ne_of_lt old) ..)
  have paramsMade : made.sets lo = some {} :=
    (Function.update_of_ne (Nat.ne_of_lt (Nat.lt_succ_self lo)) ..).trans
      (Function.update_self ..)
  have lablesMade : made.Declares (lo + 1) lableInfo [] := .fresh _ lableInfo
  obtain ⟨heap, global, ast, lables⟩ := (SameTables.expectAndConsume _).of_ok opened
  change p₄.heap = made at heap
  change p₄.tLableTab = lo + 1 at lables
  change p₄.globalTable = p.globalTable at global
  change p₄.ast = p.ast at ast
  obtain ⟨params_in, kept, next, global', ast', lables'⟩ :=
    parseParams_ok (emptyParams (heap ▸ paramsMade)) read
  rw [heap] at kept next
  obtain ⟨heap'', global'', ast'', lables''⟩ := (SameTables.expectAndConsume _).of_ok closed
  rw [← heap''] at params_in kept next
  have nextMade : p₆.heap.next = lo + 2 := next
  have lableTab : p₆.tLableTab = lo + 1 := (lables''.trans lables').trans lables
  have globalTable : p₆.globalTable = p.globalTable := (global''.trans global').trans global
  have inside : Inside lo p₆ := ⟨by rw [nextMade]; omega, by rw [nextMade, lableTab]; omega,
    by rw [lableTab]; omega⟩
  obtain ⟨news, built, outcome⟩ := (scopeParsers fuel).statement inside parsed
  have final : ∀ id : Nat, id < lo → p₈.heap.sets id = p.heap.sets id := fun id old => by
    rw [built.extended.kept id (by omega) (by omega) (by omega), kept id (Nat.ne_of_lt old),
      sets id old]
  have later := built.extended.next_le
  rw [nextMade] at later
  cases stmt with
  | none => cases accepted
  | some body =>
      obtain ⟨_, same, rfl, _⟩ | ⟨none, _⟩ := outcome
      · cases same
        cases accepted
        refine ⟨?_, final, built.globalTable.trans globalTable,
          built.ast.trans ((ast''.trans ast').trans ast), rfl⟩
        obtain ⟨extended, statement, -, -, -⟩ := built
        rw [nextMade, Parser.globalScopeN, globalTable] at statement
        rw [lableTab] at extended
        have statement := statement.of_single
        generalize p'.heap.next = hi at *
        cases statement
        case scope scopeN body block =>
          refine .function ⟨rfl, rfl, params_in.congr (extended.own_kept rfl), ?_, block⟩ .nil
          have declared := extended.lables_in [] (lablesMade.congr (kept (lo + 1) (by omega)))
          simpa [ScopePhrase.lables, lablesOf, AstNode.lables] using declared
        all_goals exact .unbraced (by simp [AstNode.kind]) (by simp [AstNode.kind]) (by omega) .nil
      · cases none

theorem SameTables.parseGlobalSize : Steps Parser.SameTables parseGlobalSize := by
  refine .bind (isKind _) fun bracket => ?_
  cases bracket
  · exact .pure _
  · exact .bind skip fun _ => .bind tokField fun _ => .bind skip fun _ =>
      .bind (expectAndConsume _) fun _ => .pure _

/-- The tables around the functions: the parser has read the declarations
`p.ast`, and the table of globals holds those among them. -/
structure ProgramTables (p : Parser) : Prop where
  global_lt : p.globalTable < p.heap.next
  declared : p.heap.Declares p.globalTable globalInfo (globalNames p.ast)
  built : ProgramBuilt p.heap p.globalTable p.ast (p.globalTable + 1) p.heap.next

theorem ProgramTables.of_same (tables : ProgramTables p) (same : p.SameTables p') :
    ProgramTables p' := by
  obtain ⟨heap, global, ast, _⟩ := same
  obtain ⟨global_lt, declared, built⟩ := tables
  constructor <;> rw [heap, global]
  · exact global_lt
  · exact ast ▸ declared
  · exact ast ▸ built

theorem ProgramTables.global {name : Name} (size : Nat) {table : Hs} (tables : ProgramTables p)
    (stored : p.heap.sets p.globalTable = some table) :
    ProgramTables
      { p with
        heap := p.heap.write p.globalTable (table.put name { kind := .globalVar })
        ast := p.ast ++ [.global (some name) size] } where
  global_lt := tables.global_lt
  declared := by
    rw [globalNames_append]
    exact tables.declared.put stored
  built := by
    refine ProgramBuilt.append (tables.built.congr fun id lower _ => ?_) (.global .nil)
    exact Function.update_of_ne (Nat.ne_of_gt lower) ..

private theorem parseGlobalLoop_ok {name : CStr} {u : Unit} (tables : ProgramTables p)
    (accepted : parseGlobalLoop fuel name p = .ok u p') : ProgramTables p' := by
  induction fuel generalizing p name with
  | zero => cases accepted
  | succ fuel ih =>
      obtain ⟨size, p₁, sized, accepted⟩ := bind_eq_ok.mp accepted
      obtain ⟨_, _, got, accepted⟩ := bind_eq_ok.mp accepted
      cases got
      obtain ⟨_, p₂, stored, accepted⟩ := bind_eq_ok.mp accepted
      obtain ⟨_, p₃, added, accepted⟩ := bind_eq_ok.mp accepted
      cases added
      obtain ⟨comma, p₄, peeked, accepted⟩ := bind_eq_ok.mp accepted
      have tables := tables.of_same (SameTables.parseGlobalSize.of_ok sized)
      obtain ⟨name', table, rfl, present, rfl⟩ := putToHashSet_ok stored
      have tables := (tables.global size present).of_same
        ((SameTables.isKind _).of_ok peeked)
      cases comma with
      | false =>
          cases accepted
          exact tables
      | true =>
          obtain ⟨_, p₅, skipped, accepted⟩ := bind_eq_ok.mp accepted
          obtain ⟨token, p₆, read, accepted⟩ := bind_eq_ok.mp accepted
          obtain ⟨_, p₇, skipped', accepted⟩ := bind_eq_ok.mp accepted
          exact ih (((tables.of_same (SameTables.skip.of_ok skipped)).of_same
            (SameTables.tokField.of_ok read)).of_same (SameTables.skip.of_ok skipped')) accepted

theorem ProgramTables.function {node : AstNode} {name : CStr} (tables : ProgramTables p)
    (parsed : parseFunctionS fuel name p = .ok node p') :
    ProgramTables { p' with ast := p'.ast ++ [node] } := by
  obtain ⟨built, kept, global, ast, none_added⟩ := parseFunctionS_ok parsed
  have later := built.le
  obtain ⟨global_lt, declared, before⟩ := tables
  constructor <;> simp only [global, ast]
  · exact Nat.lt_of_lt_of_le global_lt later
  · rw [globalNames_append, none_added, List.append_nil]
    exact declared.congr (kept _ global_lt)
  · exact (before.congr fun id _ upper => kept id upper).append built

private theorem parserLoop_ok {u : Unit} (tables : ProgramTables p)
    (accepted : parserLoop fuel p = .ok u p') : ProgramTables p' := by
  induction fuel generalizing p with
  | zero => cases accepted
  | succ fuel ih =>
      obtain ⟨token, p₁, peeked, accepted⟩ := bind_eq_ok.mp accepted
      have tables := tables.of_same (SameTables.curr.of_ok peeked)
      cases token with
      | none =>
          cases accepted
          exact tables
      | some token =>
          dsimp only at accepted
          split at accepted
          · obtain ⟨_, p₂, skipped, accepted⟩ := bind_eq_ok.mp accepted
            obtain ⟨next, p₃, read, accepted⟩ := bind_eq_ok.mp accepted
            have tables := (tables.of_same (SameTables.skip.of_ok skipped)).of_same
              (SameTables.tokField.of_ok read)
            split at accepted
            · obtain ⟨node, p₄, parsed, accepted⟩ := bind_eq_ok.mp accepted
              obtain ⟨_, p₅, added, accepted⟩ := bind_eq_ok.mp accepted
              cases added
              exact ih (tables.function parsed) accepted
            · obtain ⟨_, p₄, parsed, accepted⟩ := bind_eq_ok.mp accepted
              obtain ⟨_, p₅, looped, closed⟩ := bind_eq_ok.mp parsed
              exact ih ((parseGlobalLoop_ok tables looped).of_same
                ((SameTables.expectAndConsume _).of_ok closed)) accepted
          · split at accepted
            · obtain ⟨_, _, got, accepted⟩ := bind_eq_ok.mp accepted
              cases got
              obtain ⟨tail, p₂, parsed, accepted⟩ := bind_eq_ok.mp accepted
              obtain ⟨_, p₃, added, accepted⟩ := bind_eq_ok.mp accepted
              cases added
              obtain ⟨body, names, grown, rfl, same⟩ := parseExtrnS_ok parsed
              cases grown
              obtain ⟨global_lt, declared, built⟩ := tables.of_same same
              obtain ⟨_, _, ast, _⟩ := same
              rw [ast] at declared built
              have none_added : globalNames (names.map .extrn) = [] := by
                simp [globalNames, List.filterMap_map]
              refine ih (p := { p₂ with ast := p₁.ast ++ names.map .extrn })
                ⟨global_lt, ?_, built.append .extrns⟩ accepted
              rw [globalNames_append, none_added, List.append_nil]
              exact declared
            · obtain ⟨_, p₂, reported, accepted⟩ := bind_eq_ok.mp accepted
              obtain ⟨_, p₃, skipped, accepted⟩ := bind_eq_ok.mp accepted
              exact ih ((tables.of_same ((SameTables.report _).of_ok reported)).of_same
                (SameTables.skip.of_ok skipped)) accepted

/-- What the loop of `parser` leaves as it is: the nodes so far, and every set made before
but that of the globals. -/
structure Parser.Precedes (p p' : Parser) : Prop where
  next_le : p.heap.next ≤ p'.heap.next
  kept : ∀ id : Nat, id < p.heap.next → id ≠ p.globalTable → p'.heap.sets id = p.heap.sets id
  globalTable : p'.globalTable = p.globalTable
  ast : p.ast <+: p'.ast

theorem Parser.Precedes.trans {p'' : Parser} (first : p.Precedes p') (second : p'.Precedes p'') :
    p.Precedes p'' where
  next_le := Nat.le_trans first.next_le second.next_le
  kept id lower other := by
    rw [second.kept id (Nat.lt_of_lt_of_le lower first.next_le) (first.globalTable ▸ other),
      first.kept id lower other]
  globalTable := second.globalTable.trans first.globalTable
  ast := first.ast.trans second.ast

theorem Parser.SameTables.precedes (same : p.SameTables p') : p.Precedes p' := by
  obtain ⟨heap, global, ast, -⟩ := same
  exact ⟨by rw [heap], fun _ _ _ => by rw [heap], global, ast ▸ List.prefix_refl _⟩

theorem Parser.Precedes.adding (p : Parser) (nodes : List AstNode) :
    p.Precedes { p with ast := p.ast ++ nodes } :=
  ⟨Nat.le_refl _, fun _ _ _ => rfl, rfl, List.prefix_append ..⟩

private theorem parseGlobalLoop_precedes {name : CStr} {u : Unit}
    (accepted : parseGlobalLoop fuel name p = .ok u p') : p.Precedes p' := by
  induction fuel generalizing p name with
  | zero => cases accepted
  | succ fuel ih =>
      obtain ⟨size, p₁, sized, accepted⟩ := bind_eq_ok.mp accepted
      obtain ⟨_, _, got, accepted⟩ := bind_eq_ok.mp accepted
      cases got
      obtain ⟨_, p₂, stored, accepted⟩ := bind_eq_ok.mp accepted
      obtain ⟨_, p₃, added, accepted⟩ := bind_eq_ok.mp accepted
      cases added
      obtain ⟨comma, p₄, peeked, accepted⟩ := bind_eq_ok.mp accepted
      obtain ⟨key, table, -, -, rfl⟩ := putToHashSet_ok stored
      have written : p₁.Precedes { p₁ with
          heap := p₁.heap.write p₁.globalTable (table.put key { kind := .globalVar }) } :=
        ⟨Nat.le_refl _, fun _ _ other => HsHeap.write_of_ne _ _ other, rfl, List.prefix_refl _⟩
      have before := ((SameTables.parseGlobalSize.of_ok sized).precedes.trans written).trans
        ((Parser.Precedes.adding _ _).trans ((SameTables.isKind _).of_ok peeked).precedes)
      cases comma with
      | false =>
          cases accepted
          exact before
      | true =>
          obtain ⟨_, p₅, skipped, accepted⟩ := bind_eq_ok.mp accepted
          obtain ⟨token, p₆, read, accepted⟩ := bind_eq_ok.mp accepted
          obtain ⟨_, p₇, skipped', accepted⟩ := bind_eq_ok.mp accepted
          have same := ((SameTables.skip.of_ok skipped).trans (SameTables.tokField.of_ok read)).trans
            (SameTables.skip.of_ok skipped')
          exact (before.trans same.precedes).trans (ih accepted)

private theorem parseFunctionS_precedes {name : CStr} {node : AstNode}
    (parsed : parseFunctionS fuel name p = .ok node p') : p.Precedes p' := by
  obtain ⟨built, kept, global, ast, -⟩ := parseFunctionS_ok parsed
  exact ⟨built.le, fun id lower _ => kept id lower, global, ast ▸ List.prefix_refl _⟩

theorem parserLoop_precedes {u : Unit} (accepted : parserLoop fuel p = .ok u p') :
    p.Precedes p' := by
  induction fuel generalizing p with
  | zero => cases accepted
  | succ fuel ih =>
      obtain ⟨token, p₁, peeked, accepted⟩ := bind_eq_ok.mp accepted
      have same := SameTables.curr.of_ok peeked
      cases token with
      | none =>
          cases accepted
          exact same.precedes
      | some token =>
          dsimp only at accepted
          split at accepted
          · obtain ⟨_, p₂, skipped, accepted⟩ := bind_eq_ok.mp accepted
            obtain ⟨next, p₃, read, accepted⟩ := bind_eq_ok.mp accepted
            have same := (same.trans (SameTables.skip.of_ok skipped)).trans
              (SameTables.tokField.of_ok read)
            split at accepted
            · obtain ⟨node, p₄, parsed, accepted⟩ := bind_eq_ok.mp accepted
              obtain ⟨_, p₅, added, accepted⟩ := bind_eq_ok.mp accepted
              cases added
              have function := same.precedes.trans (parseFunctionS_precedes parsed)
              exact (function.trans (.adding _ _)).trans (ih accepted)
            · obtain ⟨_, p₄, parsed, accepted⟩ := bind_eq_ok.mp accepted
              obtain ⟨_, p₅, looped, closed⟩ := bind_eq_ok.mp parsed
              have globals := same.precedes.trans (parseGlobalLoop_precedes looped)
              exact (globals.trans ((SameTables.expectAndConsume _).of_ok closed).precedes).trans
                (ih accepted)
          · split at accepted
            · obtain ⟨_, _, got, accepted⟩ := bind_eq_ok.mp accepted
              cases got
              obtain ⟨tail, p₂, parsed, accepted⟩ := bind_eq_ok.mp accepted
              obtain ⟨_, p₃, added, accepted⟩ := bind_eq_ok.mp accepted
              cases added
              obtain ⟨body, names, grown, rfl, read⟩ := parseExtrnS_ok parsed
              cases grown
              have before := (same.trans read).precedes
              refine before.trans (.trans ?_ (ih accepted))
              exact ⟨Nat.le_refl _, fun _ _ _ => rfl, rfl, read.2.2.1 ▸ List.prefix_append ..⟩
            · obtain ⟨_, p₂, reported, accepted⟩ := bind_eq_ok.mp accepted
              obtain ⟨_, p₃, skipped, accepted⟩ := bind_eq_ok.mp accepted
              have same := (same.trans ((SameTables.report _).of_ok reported)).trans
                (SameTables.skip.of_ok skipped)
              exact same.precedes.trans (ih accepted)

private theorem initParser_tables (tokens : List Token) : ProgramTables (initParser tokens) where
  global_lt := Nat.zero_lt_one
  declared := ⟨{}, rfl, fun name => by simp [initParser, globalNames, Names]⟩
  built := .nil

/-- After every run of the parser that returns, the tables are those of the
program it has built. -/
theorem parser_tables {tokens : List Token} {u : Unit}
    (accepted : parser (initParser tokens) = .ok u p') : ProgramTables p' :=
  parserLoop_ok (initParser_tables tokens) accepted

end Functions

end Trident
