import Trident.Ir.Acceptance
import Trident.Parser.Inverse

/-! Which printed programs the generator accepts, by the tree they are printed from. -/

set_option autoImplicit false

namespace Trident

/-- The body of a function is well scoped: a name in it is a variable of a block around it,
a parameter or a global of the program. The sets of the function are made from `next` on. -/
def TopTree.Resolves (globals : List CStr) (globalTable next : Nat) : TopTree → Prop
  | .function _ params body =>
      let nodes := bodyNodes [next + 2, next, globalTable] (next + 3) body
      WellScoped (fun name => Names (params.map some) name ∨ Names globals name)
        (Names (lablesOf nodes)) [] (.block ⟨next + 2, [next, globalTable]⟩ nodes)
  | .globals .. | .extrn .. => True

def TopTrees.Resolve (globals : List CStr) (globalTable next : Nat) : List TopTree → Prop
  | [] => True
  | top :: program =>
      top.Resolves globals globalTable next ∧
        TopTrees.Resolve globals globalTable (next + top.scopes) program

/-- In every function of the program every name resolves. -/
def ProgramResolves (program : List TopTree) : Prop :=
  TopTrees.Resolve (globalNames (programNodes 0 1 program)) 0 1 program

section Program

variable {program : List TopTree} {tokens : List Token} {p : Parser} {next : Nat}

/-- The names around the body of a function, where the parser has entered its parameters. -/
private theorem outer_eq {params : List Name} (held : p.heap.Keys next (Names (params.map some))) :
    p.Outer next = fun name => Names (params.map some) name ∨ Names (globalNames p.ast) name := by
  obtain ⟨table, stored, entries⟩ := held
  funext name
  cases name with
  | none => simp [Parser.Outer, not_names_none]
  | some name =>
      have param : p.heap.HasParam next name ↔ (table.get name).isSome := by
        simp [HsHeap.HasParam, stored, Option.isSome_iff_exists]
      rw [Parser.Outer, param, entries]

private theorem scoped_iff (tables : ParamTables p.heap next program) :
    (∀ name paramsTab lableTab params body,
      .function name paramsTab lableTab params body ∈ programNodes 0 next program →
      ∃ scopeN inner, body = .scope scopeN inner ∧
        WellScoped (p.Outer paramsTab) (Names (lablesOf inner)) [] (.block scopeN inner)) ↔
      TopTrees.Resolve (globalNames p.ast) 0 next program := by
  induction program generalizing next with
  | nil => exact iff_of_true (fun _ _ _ _ _ member => nomatch member) trivial
  | cons top program ih =>
      obtain ⟨first, others⟩ := tables
      rw [TopTrees.Resolve, ← ih others, programNodes]
      simp only [List.mem_append, or_imp, forall_and]
      refine and_congr_left fun _ => ?_
      cases top with
      | function name params body =>
          have outer := outer_eq first
          rw [TopTree.Resolves, ← outer]
          constructor
          · intro accepted
            obtain ⟨_, _, braced, resolves⟩ := accepted _ _ _ _ _ (List.mem_singleton_self _)
            cases braced
            exact resolves
          · rintro resolves _ _ _ _ _ member
            cases List.mem_singleton.mp member
            exact ⟨_, _, rfl, resolves⟩
      | globals | extrn => simp [TopTree.nodes, TopTree.Resolves, Declared.global, externNode]

/-- The program that the parser builds of a printed tree is well scoped if the names of the
tree resolve. -/
theorem programScoped_iff (full : FullProgram program)
    (printed : PrintedAs tokens (printProgram program))
    (parsed : parser (initParser tokens) = .ok () p) :
    p.ProgramScoped ↔ ProgramResolves program := by
  obtain ⟨q, made, appended, tables, run⟩ := parser_run full printed
  cases parsed.symm.trans run
  have ast : q.ast = programNodes 0 1 program := appended.ast
  have resolve := scoped_iff (p := q.reading []) tables
  rw [show (q.reading []).ast = programNodes 0 1 program from ast] at resolve
  rw [Parser.ProgramScoped, show (q.reading []).ast = programNodes 0 1 program from ast]
  exact resolve

end Program

end Trident
