import Trident.Ast
import Trident.Semantics

/-! The meaning of source expressions: 64-bit words, with operands evaluated from
left to right and the right side of an assignment before its target. -/

set_option autoImplicit false

namespace Trident

open Foundation

variable {σ : Type}

/-- The address of each visible variable. -/
abbrev Env := CStr → Word

/-- The value of a binary operator. -/
def binaryValue (op : TokenKind) (left right : Word) : StoreM σ Word :=
  match op with
  | .add => compute (left + right)
  | .sub => compute (left - right)
  | .mul => compute (left * right)
  | .dev => if divisionTraps left right then throw .trap else compute (left.sdiv right)
  | .mod => if divisionTraps left right then throw .trap else compute (left.srem right)
  | .bitAnd => compute (left &&& right)
  | .bitOr => compute (left ||| right)
  | .bitshiftL => compute (left <<< shiftCount right)
  | .bitshiftR => compute (left.sshiftRight (shiftCount right))
  | .equal => compute (truth (left == right))
  | .notEqual => compute (truth (left != right))
  | .greater => compute (truth (right.slt left))
  | .greaterEqual => compute (truth (right.sle left))
  | .lesser => compute (truth (left.slt right))
  | .lesserEqual => compute (truth (left.sle right))
  | _ => throw .undefined

/-- `++` and `--` on the variable at `addr`, which is then read and written once. -/
def stepWord (op : TokenKind) (addr : Word) : StoreM σ Word := do
  let old ← loadWord addr
  let one ← compute 1
  let new ← binaryValue op old one
  storeWord addr new
  return new

mutual

def evalExpr (w : World σ) (env : Env) : AstNode → StoreM σ Word
  | .atom .int _ intLit => compute (BitVec.ofNat 64 intLit)
  | .atom .string _ intLit => compute (w.roData intLit)
  | .atom .identifier name _ => loadWord (env name)
  | .unary .bitAnd operand => do compute (← evalLvalue w env operand)
  | .unary .mul operand => do loadWord (← evalExpr w env operand)
  | .unary .sub operand => do compute (-(← evalExpr w env operand))
  | .unary .not operand => do
      let value ← evalExpr w env operand
      let zero ← compute 0
      compute (truth (value == zero))
  | .unary .inc operand => do stepWord .add (← evalLvalue w env operand)
  | .unary .dec operand => do stepWord .sub (← evalLvalue w env operand)
  | .binary left .assign right => do
      let value ← evalExpr w env right
      let addr ← evalLvalue w env left
      storeWord addr value
      return value
  | .binary left op right => do
      let a ← evalExpr w env left
      let b ← evalExpr w env right
      binaryValue op a b
  | .functionCall name args => do callOut w name (← evalArgs w env args)
  | _ => throw .undefined
  termination_by structural node => node

/-- The address of an lvalue. -/
def evalLvalue (w : World σ) (env : Env) : AstNode → StoreM σ Word
  | .atom .identifier name _ => return env name
  | .unary .mul operand => evalExpr w env operand
  | _ => throw .undefined
  termination_by structural node => node

def evalArgs (w : World σ) (env : Env) : List AstNode → StoreM σ (List Word)
  | [] => return []
  | arg :: args => do
      let value ← evalExpr w env arg
      let values ← evalArgs w env args
      return value :: values
  termination_by structural args => args

end

section

variable (w : World σ) (env : Env)

theorem evalExpr_assign (left right : AstNode) :
    evalExpr w env (.binary left .assign right) = (do
      let value ← evalExpr w env right
      let addr ← evalLvalue w env left
      storeWord addr value
      return value) := by
  rw [evalExpr]

theorem evalExpr_binary (left right : AstNode) {op : TokenKind} (other : op ≠ .assign) :
    evalExpr w env (.binary left op right) = (do
      let a ← evalExpr w env left
      let b ← evalExpr w env right
      binaryValue op a b) := by
  rw [evalExpr]
  exact other

end

end Trident
