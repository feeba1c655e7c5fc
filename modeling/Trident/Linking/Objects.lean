import Trident.Amd64.Compiled
import Trident.Amd64.Definitions
import Trident.Amd64.Returns
import Trident.Lexing.Comments
import Trident.Linking.Refinement

/-! The files that the compiler writes, and the executables that are linked of them. -/

set_option autoImplicit false

namespace Trident

open Foundation

/-- A file that the compiler has written. -/
structure Object where
  call : Invocation
  items : List AsmItem
  stderr : List Diag
  written : main call = ⟨.status 0, .asm items, stderr⟩

/-- The function is one of the text that the file was made of. -/
def Object.Defines (object : Object) (run : FunctionRun) : Prop :=
  ∃ l, lexer (initLexer object.call.source) = .ok () l ∧ run.tokens = l.tokens ∧
    run.module = object.call.file

private theorem sourceTokens_lexed (source : List Char) (accepted : (lexMeanings (source.map byte)).isSome) :
    ∃ l, lexer (initLexer (source.map byte)) = .ok () l ∧ sourceTokens source = l.tokens := by
  unfold lexMeanings at accepted
  unfold sourceTokens
  cases lexed : lexer (initLexer (source.map byte)) with
  | ok _ l => exact ⟨l, rfl, rfl⟩
  | error _ l =>
      rw [lexed] at accepted
      cases accepted

theorem Object.Defines.of_text {object : Object} {run : FunctionRun} (source : List Char)
    (text : object.call.source = source.map byte) (accepted : (lexMeanings (source.map byte)).isSome)
    (tokens : run.tokens = sourceTokens source) (module : run.module = object.call.file) :
    object.Defines run := by
  obtain ⟨l, lexed, made⟩ := sourceTokens_lexed source accepted
  rw [← text] at lexed
  exact ⟨l, lexed, tokens.trans made, module⟩

section Functions

/-- A function of an accepted program is in the module. -/
theorem FunctionRun.mem_irTail (run : FunctionRun) {final : Ir}
    (generated : genIr run.module run.parser.ast (initIr run.parser) = .ok () final) :
    .function run.name run.params run.nodes ∈ final.irTail := by
  have whole : genIrLoop run.parser.ast { initIr run.parser with irTail := [.module run.module] } =
      .ok () final := generated
  rw [run.ast, genIrLoop_append, bind_run_of_ok run.earlier] at whole
  obtain ⟨top, made, accepted, later⟩ := bind_eq_ok.mp whole
  cases run.accepted.symm.trans accepted
  obtain ⟨_, _, added, later⟩ := bind_eq_ok.mp later
  cases added
  exact (genIrLoop_isPrefix later).subset (List.mem_append_right _ List.mem_cons_self)

/-- The file has the code of the functions of its text. -/
theorem Object.Defines.code {object : Object} {run : FunctionRun} (defines : object.Defines run) :
    ∃ code, asmFunction run.params run.nodes = .ok code ∧ .function run.name code ∈ object.items := by
  obtain ⟨l, lexed, tokens, module⟩ := defines
  obtain ⟨made, call, items, -⟩ := main_asm object.written
  have lexed' := made.lexed
  rw [call] at lexed'
  cases lexed.symm.trans lexed'
  have parsed := run.parsed
  rw [tokens, made.parsed] at parsed
  obtain ⟨-, parser⟩ := EStateM.Result.ok.inj parsed
  have generated := made.generated
  rw [parser, call, ← module] at generated
  have member := run.mem_irTail generated
  obtain ⟨_, accepted, -⟩ := dumpX86_64Nasm_items made.dumped
  obtain ⟨code, assembled⟩ := exists_asmFunction accepted member
  exact ⟨code, assembled, items ▸ (made.function_mem_iff _ _).mpr ⟨_, _, member, assembled⟩⟩

/-- With names that are used once, a function is known by its name. -/
theorem FunctionRun.eq_of_name {run run' : FunctionRun} (tokens : run.tokens = run'.tokens)
    (module : run.module = run'.module) (name : run.name = run'.name)
    (once : (functionNames run'.parser.ast).Nodup) : run = run' := by
  obtain ⟨tokens₁, module₁, parser₁, before₁, after₁, name₁, paramsTab₁, lableTab₁, params₁, scopeN₁,
    body₁, ir₁, final₁, nodes₁, parsed₁, ast₁, earlier₁, accepted₁⟩ := run
  obtain ⟨tokens₂, module₂, parser₂, before₂, after₂, name₂, paramsTab₂, lableTab₂, params₂, scopeN₂,
    body₂, ir₂, final₂, nodes₂, parsed₂, ast₂, earlier₂, accepted₂⟩ := run'
  dsimp only at tokens module name once
  subst tokens module name
  obtain ⟨-, rfl⟩ := EStateM.Result.ok.inj (parsed₁.symm.trans parsed₂)
  obtain ⟨rfl, same⟩ | ⟨between, rfl⟩ | ⟨between, rfl⟩ := split_cases (ast₁.symm.trans ast₂)
  · cases same
    obtain rfl := List.tail_eq_of_cons_eq (List.append_cancel_left (ast₁.symm.trans ast₂))
    cases earlier₁.symm.trans earlier₂
    cases accepted₁.symm.trans accepted₂
    rfl
  · rw [ast₂] at once
    simp [functionNames, List.nodup_append] at once
  · rw [ast₁] at once
    simp [functionNames, List.nodup_append] at once

/-- The run on the declaration `k` of a program, if that is a function. -/
def FunctionRun.at? (tokens : List Token) (module : String) (k : Nat) : Option FunctionRun :=
  match parsed : Trident.parser (initParser tokens) with
  | .error _ _ => none
  | .ok () parser =>
      match rest : parser.ast.drop k with
      | .function name paramsTab lableTab params (.scope scopeN body) :: after =>
          match earlier : genIrLoop (parser.ast.take k)
              { initIr parser with irTail := [.module module] } with
          | .error _ _ => none
          | .ok () ir =>
              match accepted :
                  irFunctionS (.function name paramsTab lableTab params (.scope scopeN body)) ir with
              | .ok (.function name' params' nodes) final =>
                  if same : name' = name ∧ params' = params then
                    some {
                      tokens, module, parser, before := parser.ast.take k, after, name, paramsTab
                      lableTab, params, scopeN, body, ir, final, nodes, parsed
                      ast := (List.take_append_drop k parser.ast).symm.trans (congrArg _ rest)
                      earlier
                      accepted := by rw [accepted, same.1, same.2] }
                  else none
              | _ => none
      | _ => none

end Functions

theorem mem_itemFunctions {items : List AsmItem} {name : CStr} {code : List Instr} :
    (name, code) ∈ itemFunctions items ↔ .function name code ∈ items := by
  constructor
  · intro member
    obtain ⟨item, listed, same⟩ := List.mem_filterMap.mp member
    cases item with
    | function => cases same; exact listed
    | _ => cases same
  · intro listed
    exact List.mem_filterMap.mpr ⟨_, listed, rfl⟩

/-- A file that is linked, with the functions of its text. -/
structure LinkedFile where
  object : Object
  functions : List LinkedFunction
  defines : ∀ f ∈ functions, object.Defines f.run
  complete : functions.map (·.run.name) = (itemFunctions object.items).map Prod.fst

theorem LinkedFile.exists_function {file : LinkedFile} {name : CStr} {code : List Instr}
    (listed : .function name code ∈ file.object.items) : ∃ f ∈ file.functions, f.run.name = name := by
  rw [← List.mem_map, file.complete]
  exact List.mem_map_of_mem (mem_itemFunctions.mpr listed)

/-- A function in the file is one of its text. -/
theorem Object.exists_functionRun {object : Object} {name : CStr} {code : List Instr}
    (listed : .function name code ∈ object.items) :
    ∃ run : FunctionRun, run.name = name ∧ object.Defines run := by
  obtain ⟨made, call, items, -⟩ := main_asm object.written
  obtain ⟨params, nodes, member, -⟩ := (made.function_mem_iff _ _).mp (items ▸ listed)
  have whole : genIrLoop made.p.ast { initIr made.p with irTail := [.module made.call.file] } =
      .ok () made.ir := made.generated
  obtain old | ⟨before, paramsTab, lableTab, body, after, ir, final, ast, earlier, accepted⟩ :=
    genIrLoop_function_mem whole member
  · cases List.mem_singleton.mp old
  · obtain ⟨scopeN, inner, rfl⟩ := ComesTo.braced made.parsed ast earlier accepted
    exact ⟨⟨made.l.tokens, made.call.file, made.p, before, after, name, paramsTab, lableTab, params,
      scopeN, inner, ir, final, nodes, made.parsed, ast, earlier, accepted⟩, rfl, made.l,
      call ▸ made.lexed, rfl, congrArg Invocation.file call⟩

/-- Every file that the compiler writes can be linked, wherever its literals lie. -/
theorem Object.exists_linkedFile (object : Object) (roData : Nat → Word) :
    ∃ file : LinkedFile, file.object = object ∧ ∀ f ∈ file.functions, f.roData = roData := by
  have listed : ∀ pair ∈ itemFunctions object.items, ∃ run : FunctionRun, run.name = pair.1 ∧
      object.Defines run :=
    fun pair member => object.exists_functionRun (mem_itemFunctions.mp member)
  choose run named defines using listed
  refine ⟨⟨object, (itemFunctions object.items).attach.map fun pair => ⟨run pair.1 pair.2, roData⟩, ?_, ?_⟩,
    rfl, ?_⟩
  · intro f member
    obtain ⟨pair, -, rfl⟩ := List.mem_map.mp member
    exact defines pair.1 pair.2
  · rw [List.map_map]
    exact (List.map_congr_left fun pair _ => named pair.1 pair.2).trans List.attach_map_val
  · intro f member
    obtain ⟨pair, -, rfl⟩ := List.mem_map.mp member
    rfl

end Trident
