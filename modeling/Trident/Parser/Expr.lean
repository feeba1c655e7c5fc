import Trident.Parser.State

/-! Expression parsing, from `expr.c`. Every function takes a bound on the
depth of its recursion. -/

set_option autoImplicit false

namespace Trident

/-- The enumeration `Precedence`; its members are compared and incremented as
integers. -/
abbrev Precedence := Int

def precUnknown : Precedence := -1
def precNone : Precedence := 0
def precAssignment : Precedence := 1
def precConditional : Precedence := 2
def precBitOr : Precedence := 3
def precBitAnd : Precedence := 4
def precRelational : Precedence := 5
def precEquality : Precedence := 6
def precBitshift : Precedence := 7
def precAdditive : Precedence := 8
def precMultiplicative : Precedence := 9

def isUnaryOp : TokenKind → Bool
  | .not | .add | .sub | .mul | .inc | .dec | .bitAnd => true
  | _ => false

def isProcLeftAssociative (prec : Precedence) : Bool := prec == precAssignment

def getOpPrec : TokenKind → Precedence
  | .assign => precAssignment
  | .bitOr => precBitOr
  | .bitAnd => precBitAnd
  | .lesser | .greater | .lesserEqual | .greaterEqual => precRelational
  | .equal | .notEqual => precEquality
  | .add | .sub => precAdditive
  | .bitshiftL | .bitshiftR => precBitshift
  | .mul | .dev | .mod => precMultiplicative
  | .comma | .cPren | .cBracket | .semicolon => precNone
  | _ => precUnknown

def parseAtomF : ParseM AstNode := do
  let tok ← deref (← pconsume)
  return .atom tok.kind tok.lexeme tok.intLit

/-- The tree that `parse_left_f` builds for an index: `*(index * 8 + &left)`. -/
def indexNode (left indexExpr : AstNode) : AstNode :=
  .unary .mul (.binary (.binary indexExpr .mul (.atom .int none 8)) .add (.unary .bitAnd left))

mutual

def parseExprF : Nat → Precedence → ParseM AstNode
  | 0, _ => throw .fuel
  | fuel + 1, prec => do
      let left ← parseLeftF fuel
      parseExprLoop fuel prec left

/-- The `while` loop of `parse_expr_f`. -/
def parseExprLoop : Nat → Precedence → AstNode → ParseM AstNode
  | 0, _, _ => throw .fuel
  | fuel + 1, prec, left => do
      match ← curr with
      | none => return left
      | some tok =>
          let opPrec := getOpPrec tok.kind
          if opPrec = precUnknown then
            report (.unknownOperator tok.position tok.kind)
            throw .exit
          else if opPrec = precNone ∨ opPrec < prec then
            return left
          else
            discard pconsume
            let right ← parseExprF fuel
              (if isProcLeftAssociative opPrec then opPrec + 1 else opPrec)
            parseExprLoop fuel prec (.binary left tok.kind right)

def parseFunctionCallS : Nat → ParseM AstNode
  | 0 => throw .fuel
  | fuel + 1 => do
      let name := (← tokField).lexeme
      discard pconsume
      expectAndConsume .oPren
      let args ← parseCallArgs fuel
      expectAndConsume .cPren
      return .functionCall name args

/-- The `while` loop of `parse_function_call_s`. -/
def parseCallArgs : Nat → ParseM (List AstNode)
  | 0 => throw .fuel
  | fuel + 1 => do
      if (← tokField).kind = .cPren then
        return []
      else
        let expr ← parseExprF fuel precNone
        if ← isKind .comma then
          discard pconsume
        let args ← parseCallArgs fuel
        return expr :: args

def parseUnaryLopS : Nat → ParseM AstNode
  | 0 => throw .fuel
  | fuel + 1 => do
      let op := (← deref (← pconsume)).kind
      let left ← parseLeftF fuel
      return .unary op left

def parseLeftF : Nat → ParseM AstNode
  | 0 => throw .fuel
  | fuel + 1 => do
      let token ← deref (← curr)
      let next ← ppeak
      if token.kind = .oPren then
        expectAndConsume .oPren
        let node ← parseExprF fuel precNone
        expectAndConsume .cPren
        return node
      else if token.kind = .identifier ∧ next.any (·.kind == .oPren) then
        parseFunctionCallS fuel
      else if isUnaryOp token.kind then
        parseUnaryLopS fuel
      else
        let left ← parseAtomF
        if (← tokField).kind = .oBracket then
          discard pconsume
          let indexExpr ← parseExprF fuel precNone
          expectAndConsume .cBracket
          return indexNode left indexExpr
        else
          return left

end

end Trident
