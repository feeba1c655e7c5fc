import Trident.Amd64.Diagnosed
import Trident.Amd64.Machine
import Trident.Ir.Resolution
import Trident.Parser.Bare

/-! A bare `return` against `return 0`: the compiler takes no program with a bare one. -/

set_option autoImplicit false

namespace Trident

open Foundation

/-- The program in assembly that is made of a parsed program. -/
def generated (file : String) (p : Parser) : Option (List AsmItem) :=
  match genIr file p.ast (initIr p) with
  | .error _ _ => none
  | .ok _ ir => (asmFunctions ir.irTail).toOption

/-- The program in assembly that is made of the tokens, if nothing is reported. -/
def assembled (file : String) (tokens : List Token) : Option (List AsmItem) :=
  match parser (initParser tokens) with
  | .error _ _ => none
  | .ok _ p => if p.stderr = [] then generated file p else none

def itemFunctions (items : List AsmItem) : List (CStr × List Instr) :=
  items.filterMap fun item =>
    match item with
    | .function name code => some (name, code)
    | _ => none

/-- Functions of the same name whose runs end alike, from every state. -/
def BehaveAlike (first second : CStr × List Instr) : Prop :=
  first.1 = second.1 ∧ ∀ (σ : Type) (m : AsmWorld σ) (entry : AsmState σ) result,
    Ends (asmStep m first.2) first.2 entry result ↔ Ends (asmStep m second.2) second.2 entry result

theorem BehaveAlike.refl (function : CStr × List Instr) : BehaveAlike function function :=
  ⟨rfl, fun _ _ _ _ => Iff.rfl⟩

/-- Both programs are accepted, with functions that behave alike, or none is. -/
def Interchangeable (file : String) (tokens tokens' : List Token) : Prop :=
  ((assembled file tokens).isSome ↔ (assembled file tokens').isSome) ∧
    ∀ items items', assembled file tokens = some items → assembled file tokens' = some items' →
      List.Forall₂ BehaveAlike (itemFunctions items) (itemFunctions items')

theorem Interchangeable.refl (file : String) (tokens : List Token) :
    Interchangeable file tokens tokens := by
  refine ⟨Iff.rfl, fun items items' made made' => ?_⟩
  cases made.symm.trans made'
  exact List.forall₂_same.mpr fun function _ => .refl function

section

variable {file : String} {program filled : List TopTree} {tokens tokens' : List Token}

/-- No program with a bare `return` is accepted. -/
private theorem assembled_bare (bare : ¬ FullProgram program) (printed : PrintedAs tokens (printProgram program)) :
    assembled file tokens = none := by
  have doomed := parser_doomed bare printed
  unfold assembled
  cases parsed : parser (initParser tokens) with
  | error stop p => rfl
  | ok u p =>
      have never := doomed.of_ok parsed file
      cases made : genIr file p.ast (initIr p) with
      | ok u ir => exact absurd made (never (initIr p) u ir)
      | error stop ir => simp [generated, made]

/-- What the generator makes of a parsed program is assembled. -/
private theorem generated_isSome (file : String) (p : Parser) :
    (generated file p).isSome ↔ Succeeds (genIr file p.ast) (initIr p) := by
  unfold generated
  cases made : genIr file p.ast (initIr p) with
  | ok u ir =>
      obtain ⟨items, accepted⟩ := asmFunctions_generated made
      have assembles : (asmFunctions ir.irTail).toOption.isSome := by rw [accepted]; rfl
      exact iff_of_true assembles ⟨u, ir, made⟩
  | error stop ir =>
      refine iff_of_false (by simp) fun succeeds => ?_
      obtain ⟨_, _, accepted⟩ := succeeds
      cases made.symm.trans accepted

/-- A program in which every `return` has its expression is accepted if its names resolve. -/
private theorem assembled_isSome (file : String) (full : FullProgram program)
    (printed : PrintedAs tokens (printProgram program)) :
    (assembled file tokens).isSome ↔ ProgramResolves program := by
  obtain ⟨q, made, appended, tables, run⟩ := parser_run full printed
  have quiet : (q.reading []).stderr = [] := appended.stderr
  have same : assembled file tokens = generated file (q.reading []) := by
    rw [assembled, run]
    exact if_pos quiet
  rw [same, generated_isSome, genIr_succeeds run, programScoped_iff full printed run]

theorem Interchangeable.none (first : assembled file tokens = none)
    (second : assembled file tokens' = none) : Interchangeable file tokens tokens' := by
  refine ⟨by rw [first, second], fun items _ made => ?_⟩
  cases first.symm.trans made

/-- Writing `return 0;` for statements `return;` of a program changes nothing exactly when
there is none to write it for, or the program that results is not accepted either: a bare
`return` is left in it, or one of its names does not resolve. -/
theorem bareReturn_interchangeable (fills : FillsProgram program filled)
    (printed : PrintedAs tokens (printProgram program))
    (printed' : PrintedAs tokens' (printProgram filled))
    (unchanged : program = filled → tokens = tokens') :
    Interchangeable file tokens tokens' ↔
      program = filled ∨ ¬ FullProgram filled ∨ ¬ ProgramResolves filled := by
  constructor
  · intro interchangeable
    by_cases whole : FullProgram program
    · exact .inl (fills.eq whole)
    have first : assembled file tokens = none := assembled_bare whole printed
    by_cases full : FullProgram filled
    · refine .inr (.inr fun resolves => ?_)
      have accepted := interchangeable.1.mpr ((assembled_isSome file full printed').mpr resolves)
      rw [first] at accepted
      cases accepted
    · exact .inr (.inl full)
  · intro condition
    by_cases whole : FullProgram program
    · obtain rfl := unchanged (fills.eq whole)
      exact .refl file tokens
    have first : assembled file tokens = none := assembled_bare whole printed
    rcases condition with rfl | bare | unresolved
    · obtain rfl := unchanged rfl
      exact .refl file tokens
    · exact .none first (assembled_bare bare printed')
    · by_cases full : FullProgram filled
      · have refused := mt (assembled_isSome file full printed').mp unresolved
        exact .none first (Option.not_isSome_iff_eq_none.mp refused)
      · exact .none first (assembled_bare full printed')

/-- `f ( ) { return ; }` -/
def bareProgram : List TopTree := [.function [byte 'f'] [] [.return_ none]]

/-- `f ( ) { return 0 ; }` -/
def zeroProgram : List TopTree := [.function [byte 'f'] [] [.return_ (some zeroTree)]]

def printedTokens (program : List TopTree) : List Token := (printProgram program).map Spelled.token

private theorem fills_bare : FillsProgram bareProgram zeroProgram :=
  .cons (.function (.cons .return_ .nil)) .nil

theorem bareReturn_interchangeable_zero :
    Interchangeable "f.b" (printedTokens bareProgram) (printedTokens zeroProgram) ↔
      bareProgram = zeroProgram ∨ ¬ FullProgram zeroProgram ∨ ¬ ProgramResolves zeroProgram := by
  have changed : bareProgram ≠ zeroProgram := by simp [bareProgram, zeroProgram]
  exact bareReturn_interchangeable fills_bare (printedAs_token _) (printedAs_token _)
    fun same => absurd same changed

/-- `return 0;` is accepted where `return;` is not. -/
theorem bareReturn_rejected :
    FillsProgram bareProgram zeroProgram ∧
      ¬ Interchangeable "f.b" (printedTokens bareProgram) (printedTokens zeroProgram) := by
  refine ⟨fills_bare, fun interchangeable => ?_⟩
  have rejected : (assembled "f.b" (printedTokens bareProgram)).isSome = false := by decide +kernel
  have accepted : (assembled "f.b" (printedTokens zeroProgram)).isSome = true := by decide +kernel
  exact absurd (interchangeable.1.mpr accepted) (by rw [rejected]; decide)

end

end Trident
