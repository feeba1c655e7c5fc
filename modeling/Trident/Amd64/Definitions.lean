import Trident.Amd64.Frame
import Trident.Amd64.Literals
import Trident.Ir.WellFormed

/-! Which programs give every symbol and every local label one definition. -/

set_option autoImplicit false

namespace Trident

open Foundation

section Code

variable {maxT allocI params : Nat} {nodes : List IrNode} {code : List Instr}

end Code

private theorem mem_asmFunctions_iff {module : List IrTop} {items : List AsmItem} {name : CStr}
    {code : List Instr} (accepted : asmFunctions module = .ok items) :
    .function name code ∈ items ↔ ∃ params nodes, .function name params nodes ∈ module ∧
      asmFunction params nodes = .ok code := by
  induction module generalizing items with
  | nil =>
      cases accepted
      simp
  | cons node rest ih =>
      cases node with
      | function name' params nodes =>
          obtain ⟨code', others, first, later, rfl⟩ := asmFunctions_function accepted
          constructor
          · intro member
            rcases List.mem_cons.mp member with same | member
            · cases same
              exact ⟨params, nodes, List.mem_cons_self, first⟩
            · obtain ⟨params, nodes, member, made⟩ := (ih later).mp member
              exact ⟨params, nodes, List.mem_cons_of_mem _ member, made⟩
          · rintro ⟨params', nodes', member, made⟩
            rcases List.mem_cons.mp member with same | member
            · cases same
              cases first.symm.trans made
              exact List.mem_cons_self
            · exact List.mem_cons_of_mem _ ((ih later).mpr ⟨params', nodes', member, made⟩)
      | extrn name' =>
          obtain ⟨others, later, rfl⟩ := asmFunctions_extrn accepted
          simpa using ih later
      | _ => simpa using ih accepted

/-- Every function of a module that is written has code. -/
theorem exists_asmFunction {module : List IrTop} {items : List AsmItem} {name : CStr} {params : Nat}
    {nodes : List IrNode} (accepted : asmFunctions module = .ok items)
    (member : .function name params nodes ∈ module) :
    ∃ code, asmFunction params nodes = .ok code := by
  induction module generalizing items with
  | nil => cases member
  | cons node rest ih =>
      cases node with
      | function name' params' nodes' =>
          obtain ⟨code, others, first, later, rfl⟩ := asmFunctions_function accepted
          rcases List.mem_cons.mp member with same | member
          · cases same
            exact ⟨code, first⟩
          · exact ih later member
      | extrn name' =>
          obtain ⟨others, later, rfl⟩ := asmFunctions_extrn accepted
          rcases List.mem_cons.mp member with same | member
          · cases same
          · exact ih later member
      | _ =>
          rcases List.mem_cons.mp member with same | member
          · cases same
          · exact ih (by exact accepted) member

theorem sameName_iff {left right : CStr} (left_some : left.isSome) (right_some : right.isSome) :
    SameName left right ↔ showName left = showName right := by
  cases left with
  | none => cases left_some
  | some left =>
      cases right with
      | none => cases right_some
      | some right => simp [SameName, showName]

namespace FunctionRun

variable (run : FunctionRun)

end FunctionRun

namespace AsmRun

variable (run : AsmRun)

theorem function_mem_iff (name : CStr) (code : List Instr) :
    .function name code ∈ run.items ↔ ∃ params nodes,
      .function name params nodes ∈ run.ir.irTail ∧ asmFunction params nodes = .ok code := by
  obtain ⟨functions, accepted, same⟩ := dumpX86_64Nasm_items run.dumped
  have globals : AsmItem.function name code ∉ asmGlobals run.ir.irTail := by
    intro member
    obtain ⟨node, _, made⟩ := List.mem_filterMap.mp member
    cases node <;> cases made
  rw [OutFile.asm.inj same, ← mem_asmFunctions_iff accepted]
  split <;> simp [globals]

end AsmRun

end Trident
