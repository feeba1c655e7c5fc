import Trident.Amd64.Diagnosed
import Trident.Ir.Acceptance

/-! The texts that the compiler accepts. -/

set_option autoImplicit false

namespace Trident

/-- A known target is written, whatever the generator has made. -/
private theorem genOutput_status {call : Invocation} {tokens : List Token} {ir : Ir} {p : Parser}
    (generated : genIr call.file p.ast (initIr p) = .ok () ir) (stderr : List Diag) :
    (genOutput call tokens ir.irTail stderr).finish = .status 0 ↔
      targetStringToKind call.target ≠ .unknownTarget := by
  rw [genOutput]
  split
  next unknown => simp [unknown, exitFailure]
  next known => simp [known]
  next known =>
    obtain ⟨content, dumped⟩ := dumpX86_64Nasm_accepts generated call.file tokens
    simp [dumped, known]

private theorem runIr_status {call : Invocation} {tokens : List Token} {p : Parser}
    (parsed : parser (initParser tokens) = .ok () p) (stderr : List Diag) :
    (runIr call tokens p stderr).finish = .status 0 ↔
      call.writable ∧ targetStringToKind call.target ≠ .unknownTarget ∧ p.ProgramScoped := by
  have accepted_iff : Succeeds (genIr call.file p.ast) (initIr p) ↔ p.ProgramScoped :=
    genIr_succeeds parsed
  rw [← accepted_iff]
  by_cases writable : call.writable
  · cases generated : genIr call.file p.ast (initIr p) with
    | ok u ir =>
        have returns : Succeeds (genIr call.file p.ast) (initIr p) := ⟨u, ir, generated⟩
        rw [runIr_generated writable generated, genOutput_status generated]
        simp [writable, returns]
    | error stop ir =>
        have refused : ¬ Succeeds (genIr call.file p.ast) (initIr p) := by
          rintro ⟨_, _, accepted⟩
          cases generated.symm.trans accepted
        rw [runIr_stopped writable generated]
        exact iff_of_false stop.runEnd_ne_success fun accepted => refused accepted.2.2
  · rw [runIr, if_neg writable]
    simp [writable, exitFailure]

/-- The compiler exits with success where the lexer and the parser return, the output can
be written for a target that is known, and every name of the program resolves. -/
theorem main_succeeds_iff (call : Invocation) :
    (main call).finish = .status 0 ↔
      ∃ l p, lexer (initLexer call.source) = .ok () l ∧
        parser (initParser l.tokens) = .ok () p ∧
        call.writable ∧ targetStringToKind call.target ≠ .unknownTarget ∧ p.ProgramScoped := by
  cases lexed : lexer (initLexer call.source) with
  | error stop l =>
      rw [main_lexer_stopped lexed]
      refine iff_of_false stop.runEnd_ne_success ?_
      rintro ⟨_, _, accepted, -⟩
      cases accepted
  | ok u l =>
      rw [main_lexed lexed]
      cases parsed : parser (initParser l.tokens) with
      | error stop p =>
          rw [runParser_stopped parsed]
          refine iff_of_false stop.runEnd_ne_success ?_
          rintro ⟨_, _, returned, accepted, -⟩
          cases returned
          cases parsed.symm.trans accepted
      | ok u p =>
          rw [runParser_parsed parsed, runIr_status parsed]
          constructor
          · exact fun resolved => ⟨l, p, rfl, parsed, resolved⟩
          · rintro ⟨_, _, returned, accepted, resolved⟩
            cases returned
            cases parsed.symm.trans accepted
            exact resolved

end Trident
