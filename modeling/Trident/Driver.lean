import Trident.Backend
import Trident.Parser.Statement
import Trident.Ir.Generate

/-! The run of the compiler on one source text, from `main.c`, once the options
have been read and the input file was opened. -/

set_option autoImplicit false

namespace Trident

/-- How a run ends: with an exit status, or in a step that C leaves undefined.
`fuel` is the bound of the model, which no run reaches. -/
inductive RunEnd where
  | status (code : Nat)
  | fault (fault : Fault)
  | fuel
  deriving DecidableEq, Repr

/-- `EXIT_FAILURE`. -/
def exitFailure : Nat := 1

def Stop.runEnd : Stop → RunEnd
  | .exit => .status exitFailure
  | .fault reason => .fault reason
  | .fuel => .fuel

/-- What a run leaves behind. -/
structure Run where
  finish : RunEnd
  output : OutFile
  stderr : List Diag
  deriving DecidableEq, Repr

/-- What a run is given: the input file and its name, the target string, the
output file, and whether that can be opened for writing. -/
structure Invocation where
  file : String
  source : List UInt8
  target : CStr
  path : String
  writable : Bool
  output : OutFile

/-- What `fopen` with mode `w` makes of an existing file. -/
def truncated : OutFile := .bytes []

/-- `gen_output`, on a file that `init_ir` has already truncated. -/
def genOutput (call : Invocation) (tokens : List Token) (module : List IrTop)
    (stderr : List Diag) : Run :=
  match targetStringToKind call.target with
  | .unknownTarget => ⟨.status exitFailure, truncated, stderr ++ [.unknownTarget]⟩
  | .irTarget => ⟨.status 0, dumpIr module tokens, stderr⟩
  | .x86_64Nasm =>
      match dumpX86_64Nasm call.file module tokens with
      | .ok content => ⟨.status 0, content, stderr⟩
      | .error diag => ⟨.status exitFailure, truncated, stderr ++ [diag]⟩

/-- `main` from the call of `init_ir` on. -/
def runIr (call : Invocation) (tokens : List Token) (p : Parser) (stderr : List Diag) : Run :=
  if call.writable then
    match genIr call.file p.ast (initIr p) with
    | .ok _ ir => genOutput call tokens ir.irTail (stderr ++ ir.stderr)
    | .error stop ir => ⟨stop.runEnd, truncated, stderr ++ ir.stderr⟩
  else
    ⟨.status exitFailure, call.output, stderr ++ [.failedToOpen call.path]⟩

/-- `main` from the call of `parser` on. -/
def runParser (call : Invocation) (tokens : List Token) (stderr : List Diag) : Run :=
  match parser (initParser tokens) with
  | .ok _ p => runIr call tokens p (stderr ++ p.stderr)
  | .error stop p => ⟨stop.runEnd, call.output, stderr ++ p.stderr⟩

def main (call : Invocation) : Run :=
  match lexer (initLexer call.source) with
  | .ok _ l => runParser call l.tokens l.stderr
  | .error stop l => ⟨stop.runEnd, call.output, l.stderr⟩

end Trident
