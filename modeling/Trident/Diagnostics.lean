import Trident.Ast

/-! What the stages print on `stderr`, and the ways a stage can end early. -/

set_option autoImplicit false

namespace Trident

inductive Diag where
  | unterminatedLiteral (at_ : Position)
  | unterminatedEscape (at_ : Position)
  | unknownEscape (at_ : Position) (got : UInt8)
  | characterTooLong (at_ : Position)
  | invalidOctalDigit (at_ : Position) (got : UInt8)
  | expected (at_ : Position) (kind got : TokenKind)
  | unexpectedToken (at_ : Position) (kind : TokenKind)
  | unknownOperator (at_ : Position) (kind : TokenKind)
  | undefinedVariable (name : CStr)
  | noStorageSlot (name : CStr)
  | unsupportedVariable (name : CStr)
  | notAnLvalue
  | unhandledAtom (kind : TokenKind) (value : CStr)
  | unhandledUnary (op : TokenKind)
  | unhandledBinary (op : TokenKind)
  | unhandledNode (kind : AstKind)
  | symbolNotFound (name : CStr)
  | noLable (name : CStr)
  | noScope
  | unhandledStatement (kind : AstKind)
  | unknownTarget
  | failedToOpen (path : String)
  | unhandledOp (op : Nat)
  deriving DecidableEq, Repr

/-- What `%s` prints for a string; glibc prints `(null)` for a null pointer. -/
def showStr : CStr → String
  | none => "(null)"
  | some name => String.ofList ((cstr name).map fun byte => Char.ofNat byte.toNat)

/-- The text of a diagnostic about the source file `file`. -/
def Diag.text (file : String) : Diag → String
  | .unterminatedLiteral p => located p "Unterminated quoted constant literal."
  | .unterminatedEscape p => located p "Unterminated quoted constant after escape."
  | .unknownEscape p got => located p s!"Unknown escape sequence `*{Char.ofNat got.toNat}`"
  | .characterTooLong p => located p "Character constant too long."
  | .invalidOctalDigit p got =>
      located p s!"Invalid digit '{Char.ofNat got.toNat}' in octal constant."
  | .expected p kind got =>
      located p s!"Expected `{tokenKindToStr kind}` but got `{tokenKindToStr got}`"
  | .unexpectedToken p kind => located p s!"Unexpected token `{tokenKindToStr kind}`."
  | .unknownOperator p kind => located p s!"Unknown operator `{tokenKindToStr kind}`."
  | .undefinedVariable name => s!"FATAL: Undefined variable '{showStr name}'"
  | .noStorageSlot name => s!"FATAL: Variable '{showStr name}' has no storage slot yet"
  | .unsupportedVariable name => s!"FATAL: Unsupported variable kind for '{showStr name}'"
  | .notAnLvalue => "FATAL: Expression is not an lvalue"
  | .unhandledAtom kind value =>
      s!"FATAL: Unhandled atom kind ({kind.ctorIdx}, value={showStr value}) in ir_expr_f"
  | .unhandledUnary op => s!"FATAL: Unhandled unary op ({op.ctorIdx}) in ir_expr_f"
  | .unhandledBinary op => s!"FATAL: Unhandled binary op ({op.ctorIdx}) in ir_expr_f"
  | .unhandledNode kind => s!"FATAL: Unhandled node kind ({kind.ctorIdx}) in ir_expr_f"
  | .symbolNotFound name => s!"FATAL: Symbol '{showStr name}' not found in scope"
  | .noLable name => s!"FATAL: No lable {showStr name} in current resolution."
  | .noScope => "FATAL: no scope!"
  | .unhandledStatement kind =>
      s!"FATAL: Unhandled node kind ({kind.ctorIdx}) in ir_statements"
  | .unknownTarget => "FATAL: unknown target (expected: ir, x86_64_nasm)"
  | .failedToOpen path => s!"FATAL: Failed to open file: {path}"
  | .unhandledOp op => s!"FATAL: asm backend: unhandled op {op}"
where
  located (p : Position) (message : String) : String :=
    s!"{file}:{p.ln}:{p.cn}: {message}"

/-- Steps the C standard leaves undefined, or that break the contract of the
external hash set. -/
inductive Fault where
  | nullToken
  | nullNode
  | nullName
  | wrongMember
  | freedTable
  | outOfBounds
  deriving DecidableEq, Repr

/-- Why a stage ends before it returns. `fuel` marks a run that was cut
short by the bound given to the model, which the code does not have. -/
inductive Stop where
  | exit
  | fault (fault : Fault)
  | fuel
  deriving DecidableEq, Repr

end Trident
