import Trident.Ir.Emitted
import Trident.Ir.Faults

/-! What the generator makes of the declarations of a program: the functions and
the globals of the module are those of the program, in their order. -/

set_option autoImplicit false

namespace Trident

open Foundation

/-- The globals and the functions of a module. -/
def moduleGlobals (module : List IrTop) : List CStr :=
  module.filterMap fun node =>
    match node with
    | .global name _ => some name
    | _ => none

def moduleFunctions (module : List IrTop) : List CStr :=
  module.filterMap fun node =>
    match node with
    | .function name _ _ => some name
    | _ => none

@[simp] theorem moduleGlobals_append (first second : List IrTop) :
    moduleGlobals (first ++ second) = moduleGlobals first ++ moduleGlobals second :=
  List.filterMap_append

@[simp] theorem moduleFunctions_append (first second : List IrTop) :
    moduleFunctions (first ++ second) = moduleFunctions first ++ moduleFunctions second :=
  List.filterMap_append

/-- Only external declarations are added to the module. -/
def Ir.Imports (ir ir' : Ir) : Prop :=
  ∃ names : List CStr, ir'.irTail = ir.irTail ++ names.map .extrn

namespace Imports

theorem same {ir ir' : Ir} (irTail : ir'.irTail = ir.irTail) : ir.Imports ir' :=
  ⟨[], by rw [irTail, List.map_nil, List.append_nil]⟩

instance : Std.Refl Ir.Imports := ⟨fun _ => same rfl⟩

instance : IsTrans Ir Ir.Imports := by
  constructor
  rintro first second third ⟨names, added⟩ ⟨names', added'⟩
  exact ⟨names ++ names', by rw [added', added, List.map_append, List.append_assoc]⟩

theorem closed : Ir.Closed Ir.Imports where
  append _ _ := same rfl
  lableC _ _ := same rfl
  heap _ _ := same rfl
  stderr _ _ := same rfl
  extrn _ name := ⟨[name], rfl⟩

end Imports

variable {ir ir' : Ir}

theorem Ir.Imports.globals (imports : ir.Imports ir') :
    moduleGlobals ir'.irTail = moduleGlobals ir.irTail := by
  obtain ⟨names, added⟩ := imports
  have none_added : moduleGlobals (names.map .extrn) = [] := by
    simp [moduleGlobals, List.filterMap_map]
  rw [added, moduleGlobals_append, none_added, List.append_nil]

theorem Ir.Imports.functions (imports : ir.Imports ir') :
    moduleFunctions ir'.irTail = moduleFunctions ir.irTail := by
  obtain ⟨names, added⟩ := imports
  have none_added : moduleFunctions (names.map .extrn) = [] := by
    simp [moduleFunctions, List.filterMap_map]
  rw [added, moduleFunctions_append, none_added, List.append_nil]

/-- The function that is made of a declaration. -/
private theorem irFunctionS_top {ir final : Ir} {name : CStr} {paramsTab lableTab params : Nat}
    {body : AstNode} {top : IrTop}
    (accepted : irFunctionS (.function name paramsTab lableTab params body) ir = .ok top final) :
    ir.Imports final ∧ top = .function name params final.nodes := by
  obtain ⟨⟨names, added⟩, made⟩ := Imports.closed.irFunctionS accepted
  exact ⟨⟨names, added⟩, made⟩

/-- The declarations that `gen_ir` adds to the module. -/
private theorem genIrLoop_names {nodes : List AstNode} {ir final : Ir}
    (accepted : genIrLoop nodes ir = .ok () final) :
    moduleGlobals final.irTail = moduleGlobals ir.irTail ++ globalNames nodes ∧
      moduleFunctions final.irTail = moduleFunctions ir.irTail ++ functionNames nodes := by
  induction nodes generalizing ir with
  | nil =>
      cases accepted
      exact ⟨(List.append_nil _).symm, (List.append_nil _).symm⟩
  | cons node rest ih =>
      cases node with
      | function name paramsTab lableTab params body =>
          obtain ⟨top, made, generated, accepted⟩ := bind_eq_ok.mp accepted
          obtain ⟨_, _, added, accepted⟩ := bind_eq_ok.mp accepted
          cases added
          obtain ⟨imports, rfl⟩ := irFunctionS_top generated
          obtain ⟨globals, functions⟩ := ih accepted
          constructor
          · rw [globals, moduleGlobals_append, imports.globals]
            exact congrArg (· ++ _) (List.append_nil _)
          · rw [functions, moduleFunctions_append, imports.functions, List.append_assoc]
            rfl
      | global name size =>
          obtain ⟨globals, functions⟩ := ih (by exact accepted)
          constructor
          · rw [globals, moduleGlobals_append, List.append_assoc]
            rfl
          · rw [functions, moduleFunctions_append]
            exact congrArg (· ++ _) (List.append_nil _)
      | extrn name =>
          obtain ⟨globals, functions⟩ := ih (by exact accepted)
          constructor
          · rw [globals, moduleGlobals_append]
            exact congrArg (· ++ _) (List.append_nil _)
          · rw [functions, moduleFunctions_append]
            exact congrArg (· ++ _) (List.append_nil _)
      | _ => exact ih accepted

theorem genIr_names {module : String} {ast : List AstNode} {p : Parser} {final : Ir}
    (accepted : genIr module ast (initIr p) = .ok () final) :
    moduleGlobals final.irTail = globalNames ast ∧
      moduleFunctions final.irTail = functionNames ast := genIrLoop_names (by exact accepted)

theorem Ir.Imports.isPrefix (imports : ir.Imports ir') : ir.irTail <+: ir'.irTail := by
  obtain ⟨names, added⟩ := imports
  exact ⟨_, added.symm⟩

theorem Ir.Imports.function_mem (imports : ir.Imports ir') {name : CStr} {params : Nat}
    {nodes : List IrNode} (member : .function name params nodes ∈ ir'.irTail) :
    .function name params nodes ∈ ir.irTail := by
  obtain ⟨names, added⟩ := imports
  rw [added] at member
  rcases List.mem_append.mp member with before | new
  · exact before
  · obtain ⟨_, _, same⟩ := List.mem_map.mp new
    cases same

theorem genIrLoop_isPrefix {nodes : List AstNode} {ir final : Ir}
    (accepted : genIrLoop nodes ir = .ok () final) : ir.irTail <+: final.irTail := by
  induction nodes generalizing ir with
  | nil =>
      cases accepted
      exact List.prefix_rfl
  | cons node rest ih =>
      cases node with
      | function name paramsTab lableTab params body =>
          obtain ⟨top, made, generated, accepted⟩ := bind_eq_ok.mp accepted
          obtain ⟨_, _, added, accepted⟩ := bind_eq_ok.mp accepted
          cases added
          obtain ⟨imports, rfl⟩ := irFunctionS_top generated
          exact imports.isPrefix.trans ((List.prefix_append _ _).trans (ih accepted))
      | global | extrn => exact (List.prefix_append _ _).trans (ih (by exact accepted))
      | _ => exact ih accepted

/-- A function of the module was made of a function of the program. -/
theorem genIrLoop_function_mem {nodes : List AstNode} {ir final : Ir} {name : CStr} {params : Nat}
    {code : List IrNode} (accepted : genIrLoop nodes ir = .ok () final)
    (member : .function name params code ∈ final.irTail) :
    .function name params code ∈ ir.irTail ∨
      ∃ before paramsTab lableTab body after ir' final',
        nodes = before ++ .function name paramsTab lableTab params body :: after ∧
        genIrLoop before ir = .ok () ir' ∧
        irFunctionS (.function name paramsTab lableTab params body) ir' =
          .ok (.function name params code) final' := by
  induction nodes generalizing ir with
  | nil =>
      cases accepted
      exact .inl member
  | cons node rest ih =>
      have extend : ∀ {ir₁ : Ir}, genIrLoop rest ir₁ = .ok () final →
          (∀ before, genIrLoop (node :: before) ir = genIrLoop before ir₁) →
          .function name params code ∈ ir₁.irTail ∨
            ∃ before paramsTab lableTab body after ir' final',
              node :: rest = before ++ .function name paramsTab lableTab params body :: after ∧
              genIrLoop before ir = .ok () ir' ∧
              irFunctionS (.function name paramsTab lableTab params body) ir' =
                .ok (.function name params code) final' := by
        intro ir₁ later first
        rcases ih later with earlier | ⟨before, paramsTab, lableTab, body, after, ir', final', split,
          reached, made⟩
        · exact .inl earlier
        · exact .inr ⟨node :: before, paramsTab, lableTab, body, after, ir', final',
            by rw [split, List.cons_append], (first before).trans reached, made⟩
      cases node with
      | function name' paramsTab lableTab params' body =>
          obtain ⟨top, made, generated, later⟩ := bind_eq_ok.mp accepted
          obtain ⟨_, _, added, later⟩ := bind_eq_ok.mp later
          cases added
          have first : ∀ before, genIrLoop (.function name' paramsTab lableTab params' body :: before)
              ir = genIrLoop before { made with irTail := made.irTail ++ [top] } :=
            fun before => bind_run_of_ok generated
          rcases extend later first with earlier | found
          · obtain ⟨imports, rfl⟩ := irFunctionS_top generated
            rcases List.mem_append.mp earlier with old | new
            · exact .inl (imports.function_mem old)
            · cases List.mem_singleton.mp new
              exact .inr ⟨[], paramsTab, lableTab, body, rest, ir, made, rfl, rfl, generated⟩
          · exact .inr found
      | global name' size =>
          rcases extend (by exact accepted) (fun _ => rfl) with earlier | found
          · rcases List.mem_append.mp earlier with old | new
            · exact .inl old
            · cases List.mem_singleton.mp new
          · exact .inr found
      | extrn name' =>
          rcases extend (by exact accepted) (fun _ => rfl) with earlier | found
          · rcases List.mem_append.mp earlier with old | new
            · exact .inl old
            · cases List.mem_singleton.mp new
          · exact .inr found
      | _ => exact extend accepted (fun _ => rfl)

section Functions

variable {tokens : List Token} {parser : Parser} {module : String} {final : Ir}

/-- The generator accepts braced bodies only. -/
theorem ComesTo.braced {before after : List AstNode} {name : CStr}
    {paramsTab lableTab params : Nat} {body : AstNode} {ir made : Ir} {top : IrTop}
    (parsed : Trident.parser (initParser tokens) = .ok () parser)
    (ast : parser.ast = before ++ .function name paramsTab lableTab params body :: after)
    (comes : ComesTo parser module before ir)
    (accepted : irFunctionS (.function name paramsTab lableTab params body) ir = .ok top made) :
    ∃ scopeN inner, body = .scope scopeN inner := by
  have braced : body.kind = .scope := by
    refine (comes.function parsed ast).mp fun final wrong => ?_
    rw [accepted] at wrong
    cases wrong
  cases body with
  | scope scopeN inner => exact ⟨scopeN, inner, rfl⟩
  | _ => cases braced

/-- A function of an accepted program has a braced body, and the module has its code. -/
theorem exists_functionRun_of_ast (parsed : Trident.parser (initParser tokens) = .ok () parser)
    (generated : genIr module parser.ast (initIr parser) = .ok () final)
    {before after : List AstNode} {name : CStr} {paramsTab lableTab params : Nat} {body : AstNode}
    (ast : parser.ast = before ++ .function name paramsTab lableTab params body :: after) :
    ∃ run : FunctionRun, run.parser = parser ∧ run.name = name ∧ run.params = params ∧
      run.paramsTab = paramsTab ∧ body = .scope run.scopeN run.body ∧
      .function name params run.nodes ∈ final.irTail := by
  have whole : genIrLoop parser.ast { initIr parser with irTail := [.module module] } = .ok () final :=
    generated
  rw [ast, genIrLoop_append] at whole
  obtain ⟨_, ir, earlier, whole⟩ := bind_eq_ok.mp whole
  obtain ⟨top, made, accepted, later⟩ := bind_eq_ok.mp whole
  obtain ⟨_, _, added, later⟩ := bind_eq_ok.mp later
  cases added
  obtain ⟨-, rfl⟩ := irFunctionS_top accepted
  obtain ⟨scopeN, inner, rfl⟩ := ComesTo.braced parsed ast earlier accepted
  have listed := (genIrLoop_isPrefix later).subset (List.mem_append_right _ List.mem_cons_self)
  exact ⟨⟨tokens, module, parser, before, after, name, paramsTab, lableTab, params, scopeN, inner,
    ir, made, made.nodes, parsed, ast, earlier, accepted⟩, rfl, rfl, rfl, rfl, rfl, listed⟩

end Functions

end Trident
