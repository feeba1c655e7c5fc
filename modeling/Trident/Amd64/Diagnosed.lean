import Trident.Amd64.Compiled
import Trident.Amd64.Refinement
import Trident.Ir.Reports
import Trident.Lexing.Coverage
import Trident.Parser.Progress

/-! What a run with diagnostics leaves behind. The output file is opened between the
parser and the generator, and neither the lexer nor the parser stops at its first
diagnostic. -/

set_option autoImplicit false

namespace Trident

open Foundation

private theorem asmFunctions_accepts {module : List IrTop}
    (valid : ∀ name params nodes, .function name params nodes ∈ module → ∀ node ∈ nodes, node.Valid) :
    ∃ items, asmFunctions module = .ok items := by
  induction module with
  | nil => exact ⟨[], rfl⟩
  | cons top module ih =>
      obtain ⟨items, accepted⟩ := ih fun name params nodes member =>
        valid name params nodes (List.mem_cons_of_mem _ member)
      cases top with
      | function name params nodes =>
          obtain ⟨code, translated⟩ :=
            Activation.asmNodes_accepts (valid name params nodes List.mem_cons_self) (maxTemp params nodes) 1
          unfold asmFunctions asmFunction
          dsimp only
          rw [translated, accepted]
          exact ⟨_, rfl⟩
      | extrn name =>
          unfold asmFunctions
          rw [accepted]
          exact ⟨_, rfl⟩
      | _ => exact ⟨items, accepted⟩

/-- The backend translates what the generator makes. -/
theorem asmFunctions_generated {module : String} {ast : List AstNode} {p : Parser} {ir : Ir}
    (generated : genIr module ast (initIr p) = .ok () ir) :
    ∃ items, asmFunctions ir.irTail = .ok items := by
  apply asmFunctions_accepts
  intro name params nodes member
  rcases genIrLoop_function_mem (by exact generated) member with made | made
  · cases made with
    | tail _ other => cases other
  · obtain ⟨_, _, _, _, _, _, _, _, _, made⟩ := made
    exact irFunctionS_valid made

theorem dumpX86_64Nasm_accepts {module : String} {ast : List AstNode} {p : Parser} {ir : Ir}
    (generated : genIr module ast (initIr p) = .ok () ir) (file : String) (tokens : List Token) :
    ∃ content, dumpX86_64Nasm file ir.irTail tokens = .ok content := by
  obtain ⟨items, accepted⟩ := asmFunctions_generated generated
  unfold dumpX86_64Nasm
  rw [accepted]
  exact ⟨_, rfl⟩

section

variable {call : Invocation} {run : Run} {l : Lexer} {p : Parser} {ir : Ir}

end

end Trident
