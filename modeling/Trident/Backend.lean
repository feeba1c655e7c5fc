import Trident.Amd64.Emit
import Trident.Lexer

/-! Target selection and output, from `backend.c`, `dump_x86_64_nasm` and
`dump_ir`. An output file is kept as the pieces that are printed to it. -/

set_option autoImplicit false

namespace Trident

inductive Targets where
  | unknownTarget | x86_64Nasm | irTarget
  deriving DecidableEq, Repr

def targetIr : Name := ['i', 'r'].map byte

def targetNasm : Name :=
  ['x', '8', '6', '_', '6', '4', '_', 'n', 'a', 's', 'm'].map byte

def targetStringToKind : CStr → Targets
  | none => .unknownTarget
  | some target =>
      if cstr target = targetIr then .irTarget
      else if cstr target = targetNasm then .x86_64Nasm
      else .unknownTarget

/-- One piece of the text that `dump_x86_64_nasm` prints. -/
inductive AsmItem where
  | generatedFrom (module : String)
  | defaultRel
  | sectionBss
  | resq (name : CStr) (count : Nat)
  | sectionText
  | function (name : CStr) (code : List Instr)
  | externLine (name : CStr)
  | sectionRodata
  | db (id : Nat) (bytes : List UInt8)
  | sectionNote
  deriving DecidableEq, Repr

/-- What an output file contains. -/
inductive OutFile where
  | bytes (content : List UInt8)
  | ir (module : List IrTop) (data : List (Nat × List UInt8))
  | asm (items : List AsmItem)
  deriving DecidableEq, Repr

/-- The string literals among the tokens, each with its terminating zero. -/
def stringData (tokens : List Token) : List (Nat × List UInt8) :=
  tokens.filterMap fun token =>
    if token.kind = .string then
      some (token.intLit, cstr (token.lexeme.getD []) ++ [0])
    else none

/-- `dump_ir`. -/
def dumpIr (module : List IrTop) (tokens : List Token) : OutFile :=
  .ir module (stringData tokens)

/-- The loop of `dump_x86_64_nasm` over the globals. -/
def asmGlobals (module : List IrTop) : List AsmItem :=
  module.filterMap fun node =>
    match node with
    | .global name tempDest => some (.resq name (if tempDest ≠ 0 then tempDest else 1))
    | _ => none

/-- The loop of `dump_x86_64_nasm` over functions and `extern` declarations. -/
def asmFunctions : List IrTop → Except Diag (List AsmItem)
  | [] => .ok []
  | .function name params nodes :: module => do
      let code ← asmFunction params nodes
      let rest ← asmFunctions module
      return .function name code :: rest
  | .extrn name :: module => do
      let rest ← asmFunctions module
      return .externLine name :: rest
  | _ :: module => asmFunctions module

def dumpX86_64Nasm (file : String) (module : List IrTop) (tokens : List Token) :
    Except Diag OutFile := do
  let globals := asmGlobals module
  let functions ← asmFunctions module
  return .asm ([.generatedFrom file, .defaultRel] ++
    (if globals = [] then [] else .sectionBss :: globals) ++
    .sectionText :: functions ++
    .sectionRodata :: (stringData tokens).map (fun data => .db data.1 data.2) ++
    [.sectionNote])

end Trident
