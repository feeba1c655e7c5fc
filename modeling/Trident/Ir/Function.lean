import Trident.Ir.Generation
import Trident.Lexer

/-! The nodes of whole functions, as they come out of a run of the parser and
the generator on a list of tokens. -/

set_option autoImplicit false

namespace Trident

open Foundation

/-- The code that moves the parameters from `i` on to cells of the frame. -/
def paramCode : Nat → Nat → Nat → List IrNode
  | 0, _, _ => []
  | params + 1, i, t =>
      .operation (t + 1) .alloc 0 0 :: .operation 0 .store (t + 1) i ::
        .operation i .address (t + 1) 0 :: paramCode params (i + 1) (t + 1)

/-- The return that is added when the last node is not one. -/
def finalReturn (nodes : List IrNode) (t : Nat) : List IrNode :=
  if nodes.getLast?.any (·.isRet) then []
  else [.operation (t + 1) .const 0 0 0, .ret (t + 1)]

theorem irParams_run (params i : Nat) (ir : Ir) :
    irParams params i ir =
      .ok () (ir.append (paramCode params i ir.tempC) (ir.tempC + params)) := by
  induction params generalizing i ir with
  | zero => simp [irParams, paramCode]
  | succ params ih =>
      rw [irParams, bind_run_of_ok (emitOp_run ir _ _ _), bind_run_of_ok (emitStore_run _ _ _),
        bind_run_of_ok (addIrNode_run _ _), ih]
      simp only [Ir.append_append, Ir.append_tempC, paramCode]
      congr 1
      simp [Nat.add_assoc, Nat.add_comm 1]

/-- The counter of temporaries after that. -/
def finalTemps (nodes : List IrNode) (t : Nat) : Nat :=
  if nodes.getLast?.any (·.isRet) then t else t + 1

/-- The context where `ir_function_s` visits the body. -/
def Ir.atBody (ir : Ir) (lableTab params : Nat) : Ir :=
  { ir with
    tLableTab := lableTab
    tempC := params + params
    lableC := 1
    nodes := .label 1 :: paramCode params 1 params }

/-- The generator at the start of the body of a function. -/
def GenState.entry (params : Nat) (vars : Vars) : GenState where
  vars := vars
  temps := params + params
  lables := 1
  named := fun _ => none
  made := [1]
  held := []

/-- The nodes of a function: the entry label, the code for its parameters, that
of its body, and a return if the body does not end in one. -/
structure FunctionCode (params : Nat) (vars : Vars) (scopeN : AstScope) (body : List AstNode)
    (nodes : List IrNode) (temps : Nat) (code : List (IrNode × List Nat)) (g : GenState) : Prop where
  generates : Generates (Names (lablesOf body)) 0 (.block scopeN body)
    (.entry params vars) code g
  nodes_eq : nodes = .label 1 :: paramCode params 1 params ++ code.map Prod.fst ++
    finalReturn (.label 1 :: paramCode params 1 params ++ code.map Prod.fst) g.temps
  temps_eq : temps =
    finalTemps (.label 1 :: paramCode params 1 params ++ code.map Prod.fst) g.temps

section

variable {ir final : Ir} {globalTable paramsTab lableTab params : Nat} {scopeN : AstScope}
  {body : List AstNode} {lo hi : Nat}

private theorem lablesKnown_of_declares (declares : ir.heap.Declares lableTab lableInfo (lablesOf body)) :
    LablesKnown ir.heap lableTab (Names (lablesOf body)) := by
  obtain ⟨table, present, entries⟩ := declares
  refine ⟨table, present, fun name info found => ?_⟩
  rw [entries] at found
  by_contra unknown
  rw [if_neg unknown] at found
  cases found

private theorem lableNumber_of_declares {names : List CStr}
    (declares : ir.heap.Declares lableTab lableInfo names) :
    ir.heap.lableNumber lableTab = fun _ => none := by
  obtain ⟨table, present, entries⟩ := declares
  funext name
  cases name with
  | none => simp [HsHeap.lableNumber, present]
  | some name =>
      by_cases known : Names names (some name) <;>
        simp [HsHeap.lableNumber, present, entries, known, lableInfo]

/-- Where the body of a function is visited. -/
theorem FunctionBuilt.ready
    (built : FunctionBuilt ir.heap globalTable paramsTab lableTab params scopeN body lo hi)
    (global : globalTable < lo) :
    Ready (Names (lablesOf body)) [paramsTab, globalTable] paramsTab (lo + 2) (.block scopeN body)
      (ir.atBody lableTab params) := by
  obtain ⟨rfl, rfl, params_in, lables_in, block⟩ := built
  refine ⟨⟨?_, ?_, ?_, ?_⟩, ⟨[globalTable], rfl⟩, lablesKnown_of_declares lables_in, nofun⟩
  · simp only [List.mem_cons, List.not_mem_nil, or_false, forall_eq_or_imp, forall_eq]
    omega
  · simp only [List.nodup_cons, List.mem_singleton, List.not_mem_nil, not_false_eq_true,
      List.nodup_nil, and_true]
    omega
  · exact Nat.lt_succ_self _
  · simp only [Ir.atBody, List.mem_cons, List.not_mem_nil, or_false, not_or]
    omega

/-- An accepted function with a braced body consists of the code that its body
generates, and only its own sets have changed. -/
theorem irFunctionS_ok {name : CStr} {top : IrTop}
    (built : FunctionBuilt ir.heap globalTable paramsTab lableTab params scopeN body lo hi)
    (global : globalTable < lo)
    (accepted : irFunctionS (.function name paramsTab lableTab params (.scope scopeN body)) ir =
      .ok top final) :
    ∃ nodes code g, top = .function name params nodes ∧
      FunctionCode params (ir.heap.lvalue? [paramsTab, globalTable]) scopeN body nodes
        final.tempC code g ∧
      ∀ id : Nat, id < lo ∨ hi ≤ id → final.heap.sets id = ir.heap.sets id := by
  have ready := built.ready global
  obtain ⟨rfl, rfl, params_in, lables_in, block⟩ := built
  obtain ⟨_, ir₁, entered, accepted⟩ := bind_eq_ok.mp accepted
  cases entered
  obtain ⟨_, ir₂, counted, accepted⟩ := bind_eq_ok.mp accepted
  cases counted
  obtain ⟨_, ir₃, added, accepted⟩ := bind_eq_ok.mp accepted
  cases added
  obtain ⟨_, ir₄, entered, accepted⟩ := bind_eq_ok.mp accepted
  rw [irParams_run] at entered
  cases entered
  obtain ⟨_, ir₅, bodyRun, accepted⟩ := bind_eq_ok.mp accepted
  have low := block.le
  obtain ⟨code, trail', generates, nodes, changed, tab⟩ :=
    built_handles block 0 ⟨[1], []⟩ ready (fun _ _ _ => rfl) bodyRun
  have entry : (ir.atBody (paramsTab + 1) params).genState [paramsTab, globalTable] ⟨[1], []⟩ =
      .entry params (ir.heap.lvalue? [paramsTab, globalTable]) := by
    simp only [Ir.genState, Ir.atBody, GenState.entry, lableNumber_of_declares lables_in]
  rw [entry] at generates
  obtain ⟨_, ir₆, got, accepted⟩ := bind_eq_ok.mp accepted
  cases got
  have finish : ∀ ir' : Ir, ir'.heap = ir₅.heap → ∀ {top final},
      (do
        freeHashSet paramsTab
        freeHashSet (paramsTab + 1)
        return IrTop.function name params (← get).nodes : IrM IrTop) ir' = .ok top final →
      top = .function name params ir'.nodes ∧ final.tempC = ir'.tempC ∧
        ∀ id : Nat, id < paramsTab ∨ hi ≤ id → final.heap.sets id = ir.heap.sets id := by
    intro ir' heap top final accepted
    obtain ⟨_, ir₇, freed, accepted⟩ := bind_eq_ok.mp accepted
    obtain ⟨_, ir₈, freed', accepted⟩ := bind_eq_ok.mp accepted
    cases accepted
    rw [freeHashSet_ok freed', freeHashSet_ok freed]
    refine ⟨rfl, rfl, fun id outside => ?_⟩
    change ((ir'.heap.free paramsTab).free (paramsTab + 1)).sets id = _
    rw [HsHeap.free_of_ne _ (by omega), HsHeap.free_of_ne _ (by omega), heap]
    exact changed.kept id (by omega) (by simp only [Ir.atBody]; omega) (by omega)
  have shape : ir₅.nodes = .label 1 :: paramCode params 1 params ++ code.map Prod.fst := by
    rw [nodes]
    rfl
  cases last : ir₅.nodes.getLast?.any (·.isRet) with
  | true =>
      rw [last] at accepted
      obtain ⟨rfl, temps, kept⟩ := finish ir₅ rfl accepted
      refine ⟨ir₅.nodes, code, _, rfl, ⟨generates, ?_, ?_⟩, kept⟩
      · rw [finalReturn, ← shape, if_pos last, List.append_nil]
      · rw [finalTemps, ← shape, if_pos last, temps]
        rfl
  | false =>
      rw [last] at accepted
      obtain ⟨_, ir₇, emitted, accepted⟩ := bind_eq_ok.mp accepted
      cases emitted
      obtain ⟨_, ir₈, added, accepted⟩ := bind_eq_ok.mp accepted
      cases added
      obtain ⟨rfl, temps, kept⟩ := finish
        (ir₅.append [.operation (ir₅.tempC + 1) .const 0 0 0, .ret (ir₅.tempC + 1)]
          (ir₅.tempC + 1)) rfl (by simpa [Ir.append] using accepted)
      refine ⟨_, code, _, rfl, ⟨generates, ?_, ?_⟩, kept⟩
      · rw [finalReturn, ← shape, if_neg (by simp [last])]
        rfl
      · rw [finalTemps, ← shape, if_neg (by simp [last]), temps]
        rfl

end

theorem ProgramBuilt.split {heap : HsHeap} {globalTable lo hi : Nat} {first second : List AstNode}
    (built : ProgramBuilt heap globalTable (first ++ second) lo hi) :
    ∃ mid, ProgramBuilt heap globalTable first lo mid ∧
      ProgramBuilt heap globalTable second mid hi := by
  induction first generalizing lo with
  | nil => exact ⟨lo, .nil, built⟩
  | cons node rest ih =>
      cases built with
      | function built rest =>
          obtain ⟨mid, left, right⟩ := ih rest
          exact ⟨mid, .function built left, right⟩
      | unbraced notScope notElse ordered rest =>
          obtain ⟨mid, left, right⟩ := ih rest
          exact ⟨mid, .unbraced notScope notElse ordered left, right⟩
      | global rest =>
          obtain ⟨mid, left, right⟩ := ih rest
          exact ⟨mid, .global left, right⟩
      | extrn rest =>
          obtain ⟨mid, left, right⟩ := ih rest
          exact ⟨mid, .extrn left, right⟩

/-- A function whose body is a single statement without braces is read through
the wrong member of its body node. -/
theorem irFunctionS_unbraced {name : CStr} {paramsTab lableTab params : Nat} {body : AstNode}
    {top : IrTop} {ir final : Ir} (notScope : body.kind ≠ .scope) (notElse : body.kind ≠ .else_) :
    irFunctionS (.function name paramsTab lableTab params body) ir ≠ .ok top final := by
  intro accepted
  obtain ⟨_, ir₁, entered, accepted⟩ := bind_eq_ok.mp accepted
  obtain ⟨_, ir₂, counted, accepted⟩ := bind_eq_ok.mp accepted
  obtain ⟨_, ir₃, added, accepted⟩ := bind_eq_ok.mp accepted
  obtain ⟨_, ir₄, params, accepted⟩ := bind_eq_ok.mp accepted
  obtain ⟨_, ir₅, bodyRun, accepted⟩ := bind_eq_ok.mp accepted
  cases body <;> first | exact notScope rfl | exact notElse rfl | cases bodyRun

/-- The generator changes no set but those of the functions it has visited. -/
theorem genIrLoop_kept {nodes : List AstNode} {globalTable lo hi : Nat} {ir final : Ir} {u : Unit}
    (built : ProgramBuilt ir.heap globalTable nodes lo hi) (global : globalTable < lo)
    (accepted : genIrLoop nodes ir = .ok u final) :
    ∀ id : Nat, id < lo ∨ hi ≤ id → final.heap.sets id = ir.heap.sets id := by
  induction nodes generalizing ir lo with
  | nil =>
      cases accepted
      exact fun _ _ => rfl
  | cons node rest ih =>
      cases built with
      | @function name paramsTab lableTab params scopeN body nodes lo mid hi built later =>
          obtain ⟨top, ir₂, generated, accepted⟩ := bind_eq_ok.mp accepted
          obtain ⟨_, ir₃, added, accepted⟩ := bind_eq_ok.mp accepted
          cases added
          obtain ⟨nodes, code, g, rfl, generated, kept⟩ := irFunctionS_ok built global generated
          have low := built.block.le
          have high := later.le
          have same : ∀ id : Nat, mid ≤ id → id < hi → ir₂.heap.sets id = ir.heap.sets id :=
            fun id lower _ => kept id (.inr lower)
          intro id outside
          have laterKept := ih (by exact later.congr same) (by omega) accepted
          rw [laterKept id (by omega)]
          exact kept id (by omega)
      | unbraced notScope notElse ordered later =>
          obtain ⟨top, ir₂, generated, _⟩ := bind_eq_ok.mp accepted
          exact absurd generated (irFunctionS_unbraced notScope notElse)
      | global later =>
          obtain ⟨_, ir₁, added, accepted⟩ := bind_eq_ok.mp accepted
          cases added
          have kept := ih (by exact later) global accepted
          exact kept
      | extrn later =>
          obtain ⟨_, ir₁, added, accepted⟩ := bind_eq_ok.mp accepted
          cases added
          have kept := ih (by exact later) global accepted
          exact kept

/-- The context where the generator comes to the declarations after `before`. -/
def ComesTo (parser : Parser) (module : String) (before : List AstNode) (ir : Ir) : Prop :=
  genIrLoop before { initIr parser with irTail := [.module module] } = .ok () ir

/-- The tables of a function that the generator comes to are as the parser left them. -/
theorem ComesTo.built {tokens : List Token} {parser : Parser} {module : String}
    {before after : List AstNode} {name : CStr} {paramsTab lableTab params : Nat} {scopeN : AstScope}
    {body : List AstNode} {ir : Ir} (parsed : Trident.parser (initParser tokens) = .ok () parser)
    (ast : parser.ast =
      before ++ .function name paramsTab lableTab params (.scope scopeN body) :: after)
    (comes : ComesTo parser module before ir) :
    ∃ lo hi, parser.globalTable < lo ∧
      FunctionBuilt ir.heap parser.globalTable paramsTab lableTab params scopeN body lo hi ∧
      ir.heap.Declares parser.globalTable globalInfo (globalNames parser.ast) ∧
      ir.heap.sets paramsTab = parser.heap.sets paramsTab := by
  obtain ⟨global_lt, declared, built⟩ := parser_tables parsed
  rw [ast] at built
  obtain ⟨mid, first, second⟩ := built.split
  have low := first.le
  have kept := genIrLoop_kept (by exact first) (Nat.lt_succ_self _) comes
  cases second with
  | @function _ _ _ _ _ _ _ _ later _ built rest =>
      refine ⟨mid, later, low, built.congr fun id lower _ => kept id (.inr lower),
        declared.congr (kept _ (.inl (Nat.lt_succ_self _))), kept _ (.inr ?_)⟩
      exact Nat.le_of_eq built.paramsTab_eq.symm
  | unbraced notScope => exact absurd rfl notScope

/-- A function with a braced body, as the parser builds it from `tokens`, and
the nodes that `gen_ir` makes of it when it comes to it. -/
structure FunctionRun where
  tokens : List Token
  module : String
  parser : Parser
  before : List AstNode
  after : List AstNode
  name : CStr
  paramsTab : Nat
  lableTab : Nat
  params : Nat
  scopeN : AstScope
  body : List AstNode
  ir : Ir
  final : Ir
  nodes : List IrNode
  parsed : Trident.parser (initParser tokens) = .ok () parser
  ast : parser.ast =
    before ++ .function name paramsTab lableTab params (.scope scopeN body) :: after
  earlier : genIrLoop before { initIr parser with irTail := [.module module] } = .ok () ir
  accepted : irFunctionS (.function name paramsTab lableTab params (.scope scopeN body)) ir =
    .ok (.function name params nodes) final

namespace FunctionRun

variable (run : FunctionRun)

/-- The variables visible at the start of the body: the parameters and the globals. -/
def vars : Vars := run.ir.heap.lvalue? [run.paramsTab, run.parser.globalTable]

theorem built : ∃ lo hi, run.parser.globalTable < lo ∧
    FunctionBuilt run.ir.heap run.parser.globalTable run.paramsTab run.lableTab run.params
      run.scopeN run.body lo hi ∧
    run.ir.heap.GlobalsIn run.parser.globalTable := by
  obtain ⟨lo, hi, low, built, declared, _⟩ := ComesTo.built run.parsed run.ast run.earlier
  exact ⟨lo, hi, low, built, declared.globals_in⟩

theorem functionCode :
    ∃ code g, FunctionCode run.params run.vars run.scopeN run.body run.nodes run.final.tempC
      code g := by
  obtain ⟨lo, hi, global, built, _⟩ := run.built
  obtain ⟨nodes, code, g, same, generated, _⟩ := irFunctionS_ok built global run.accepted
  cases same
  exact ⟨code, g, generated⟩

/-- At the start of the body every variable is a parameter or a global. -/
theorem vars_eq_some {name : CStr} {lv : LValue} (found : run.vars name = some lv) :
    lv = .global name ∨ ∃ k, lv = .local_ k ∧ 1 ≤ k ∧ k ≤ run.params := by
  obtain ⟨lo, hi, global, built, globals⟩ := run.built
  obtain ⟨paramsTable, paramsPresent, paramEntries⟩ := built.paramsTab_eq ▸ built.params_in
  obtain ⟨globalTable, globalsPresent, globalEntries⟩ := globals
  cases name with
  | none => simp [vars, HsHeap.lvalue?, HsHeap.lookup] at found
  | some name =>
      simp only [vars, HsHeap.lvalue?, HsHeap.lookup, paramsPresent, globalsPresent,
        Option.bind_some] at found
      cases entry : paramsTable.get name with
      | some info =>
          obtain ⟨kind, lower, upper⟩ := paramEntries name info entry
          rw [entry] at found
          simp only [Option.bind_some, VarInfo.lvalue?, kind] at found
          rw [if_neg (by omega)] at found
          exact .inr ⟨info.tempDest, (Option.some.inj found).symm, lower, upper⟩
      | none =>
          rw [entry] at found
          cases entry' : globalTable.get name with
          | none => simp [entry'] at found
          | some info =>
              rw [entry', globalEntries name info entry'] at found
              exact .inl (Option.some.inj found).symm

end FunctionRun

/-- The run on the first function of a program. -/
def FunctionRun.first? (tokens : List Token) (module : String) : Option FunctionRun :=
  match parsed : Trident.parser (initParser tokens) with
  | .error _ _ => none
  | .ok () parser =>
      match ast : parser.ast with
      | .function name paramsTab lableTab params (.scope scopeN body) :: after =>
          let ir := { initIr parser with irTail := [.module module] }
          match accepted :
              irFunctionS (.function name paramsTab lableTab params (.scope scopeN body)) ir with
          | .ok (.function name' params' nodes) final =>
              if same : name' = name ∧ params' = params then
                some {
                  tokens, module, parser, before := [], after, name, paramsTab, lableTab, params,
                  scopeN, body, ir, final, nodes, parsed, ast, earlier := rfl
                  accepted := by rw [accepted, same.1, same.2] }
              else none
          | _ => none
      | _ => none

/-- The tokens of a source text. -/
def sourceTokens (source : List Char) : List Token :=
  match lexer (initLexer (source.map byte)) with
  | .ok _ l => l.tokens
  | .error _ l => l.tokens

end Trident
