import Trident.Driver
import Trident.Amd64.Symbols

/-! The runs of the compiler that write assembly, stage by stage. -/

set_option autoImplicit false

namespace Trident

/-- A run of the compiler that writes assembly. -/
structure AsmRun where
  call : Invocation
  l : Lexer
  p : Parser
  ir : Ir
  items : List AsmItem
  lexed : lexer (initLexer call.source) = .ok () l
  parsed : parser (initParser l.tokens) = .ok () p
  generated : genIr call.file p.ast (initIr p) = .ok () ir
  dumped : dumpX86_64Nasm call.file ir.irTail l.tokens = .ok (.asm items)

/-- The labels that the program of a run asks for. -/
def AsmRun.labels (run : AsmRun) : List Name :=
  (globalNames run.p.ast).map varLabel ++
    ((functionNames run.p.ast).map showName ++ (stringIds run.l.tokens).map roDataLabel)

theorem AsmRun.labels_eq (run : AsmRun) : itemLabels run.items = run.labels := by
  obtain ⟨globals, functions⟩ := genIr_names run.generated
  rw [dumpX86_64Nasm_labels run.dumped, moduleLabels, globals, functions, labels]

private theorem dumpX86_64Nasm_asm {file : String} {module : List IrTop} {tokens : List Token}
    {out : OutFile} (dumped : dumpX86_64Nasm file module tokens = .ok out) :
    ∃ items, out = .asm items := by
  obtain ⟨functions, _, same⟩ := dumpX86_64Nasm_items dumped
  exact ⟨_, same⟩

section Stages

variable {call : Invocation} {l : Lexer} {p : Parser} {ir : Ir} {stop : Stop} {stderr : List Diag}
variable {tokens : List Token}

theorem main_lexed (lexed : lexer (initLexer call.source) = .ok () l) :
    main call = runParser call l.tokens l.stderr := by
  rw [main, lexed]

theorem main_lexer_stopped (rejected : lexer (initLexer call.source) = .error stop l) :
    main call = ⟨stop.runEnd, call.output, l.stderr⟩ := by
  rw [main, rejected]

theorem runParser_parsed (parsed : parser (initParser tokens) = .ok () p) :
    runParser call tokens stderr = runIr call tokens p (stderr ++ p.stderr) := by
  rw [runParser, parsed]

theorem runParser_stopped (rejected : parser (initParser tokens) = .error stop p) :
    runParser call tokens stderr = ⟨stop.runEnd, call.output, stderr ++ p.stderr⟩ := by
  rw [runParser, rejected]

theorem runIr_generated (writable : call.writable)
    (generated : genIr call.file p.ast (initIr p) = .ok () ir) :
    runIr call tokens p stderr = genOutput call tokens ir.irTail (stderr ++ ir.stderr) := by
  rw [runIr, if_pos writable, generated]

theorem runIr_stopped (writable : call.writable)
    (rejected : genIr call.file p.ast (initIr p) = .error stop ir) :
    runIr call tokens p stderr = ⟨stop.runEnd, truncated, stderr ++ ir.stderr⟩ := by
  rw [runIr, if_pos writable, rejected]

/-- A stage that ends early does not end with success. -/
theorem Stop.runEnd_ne_success (stop : Stop) : stop.runEnd ≠ .status 0 := by
  cases stop <;> exact nofun

end Stages

/-- The run of the compiler on a text, to assembly. -/
def compileText (source : List Char) : Invocation where
  file := "f.b"
  source := source.map byte
  target := some targetNasm
  path := "f.s"
  writable := true
  output := truncated

/-- A text that compiles without a diagnostic, to assembly that passes a test. -/
def compilesTo (source : List Char) (test : List AsmItem → Bool) : Bool :=
  match main (compileText source) with
  | ⟨.status 0, .asm items, []⟩ => test items
  | _ => false

theorem compilesTo_items {source : List Char} {test : List AsmItem → Bool}
    (compiles : compilesTo source test = true) :
    ∃ items, main (compileText source) = ⟨.status 0, .asm items, []⟩ ∧ test items = true := by
  unfold compilesTo at compiles
  split at compiles
  · exact ⟨_, ‹_›, compiles⟩
  · cases compiles

/-- A successful run with assembly in its output file. -/
theorem main_asm {call : Invocation} {items : List AsmItem} {stderr : List Diag}
    (compiled : main call = ⟨.status 0, .asm items, stderr⟩) :
    ∃ run : AsmRun, run.call = call ∧ run.items = items ∧
      stderr = run.l.stderr ++ run.p.stderr ++ run.ir.stderr := by
  cases lexed : lexer (initLexer call.source) with
  | error stop l =>
      rw [main_lexer_stopped lexed] at compiled
      exact absurd (congrArg Run.finish compiled) stop.runEnd_ne_success
  | ok u l =>
  rw [main_lexed lexed] at compiled
  cases parsed : parser (initParser l.tokens) with
  | error stop p =>
      rw [runParser_stopped parsed] at compiled
      exact absurd (congrArg Run.finish compiled) stop.runEnd_ne_success
  | ok u p =>
  rw [runParser_parsed parsed] at compiled
  by_cases writable : call.writable = true
  · cases generated : genIr call.file p.ast (initIr p) with
    | error stop ir =>
        rw [runIr_stopped writable generated] at compiled
        exact absurd (congrArg Run.finish compiled) stop.runEnd_ne_success
    | ok u ir =>
        rw [runIr_generated writable generated, genOutput] at compiled
        split at compiled
        · cases compiled
        · cases compiled
        · split at compiled
          · rename_i content dumped
            obtain ⟨items', rfl⟩ := dumpX86_64Nasm_asm dumped
            cases compiled
            exact ⟨⟨call, l, p, ir, items, lexed, parsed, generated, dumped⟩, rfl, rfl, rfl⟩
          · cases compiled
  · rw [runIr, if_neg writable] at compiled
    cases compiled

/-- The tree of a text, empty when it is not accepted. -/
def sourceAst (source : List Char) : List AstNode :=
  match parser (initParser (sourceTokens source)) with
  | .ok _ p => p.ast
  | .error .. => []

theorem AsmRun.source {run : AsmRun} {source : List Char} (call : run.call = compileText source) :
    run.l.tokens = sourceTokens source ∧ run.p.ast = sourceAst source := by
  have lexed := run.lexed
  have parsed := run.parsed
  rw [call] at lexed
  have tokens : run.l.tokens = sourceTokens source := by
    unfold sourceTokens
    rw [show lexer (initLexer (source.map byte)) = _ from lexed]
  refine ⟨tokens, ?_⟩
  unfold sourceAst
  rw [← tokens, parsed]

end Trident
