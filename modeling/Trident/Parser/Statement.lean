import Trident.Parser.Expr

/-! Statements, declarations and whole programs, from `parser.c`. The stack
offsets the parser adds up are left out: no later stage reads them. -/

set_option autoImplicit false

namespace Trident

/-- The optional `[size]` of a declaration in `parse_auto_s`. -/
def parseAutoSize : ParseM Nat := do
  if ← isKind .oBracket then
    discard pconsume
    let size := (← tokField).intLit
    expectAndConsume .int
    expectAndConsume .cBracket
    return size
  else
    return 1

/-- The `for` loop of `parse_auto_s`. -/
def parseAutoLoop : Nat → Nat → Option (List AstNode) → ParseM (Option (List AstNode))
  | 0, _, _ => throw .fuel
  | fuel + 1, symtab, bodyTail => do
      let name := (← tokField).lexeme
      expectAndConsume .identifier
      let size ← parseAutoSize
      putToHashSet symtab name { kind := .autoVar }
      let bodyTail ← addNode bodyTail (some (.auto name size))
      if ← isKind .comma then
        discard pconsume
        parseAutoLoop fuel symtab bodyTail
      else
        return bodyTail

def parseAutoS (fuel : Nat) (symtab : Nat) (bodyTail : Option (List AstNode)) :
    ParseM (Option (List AstNode)) := do
  expectAndConsume .auto
  let bodyTail ← parseAutoLoop fuel symtab bodyTail
  expectAndConsume .semicolon
  return bodyTail

/-- The `do` loop of `parse_extrn_s`. -/
def parseExtrnLoop : Nat → Option (List AstNode) → ParseM (Option (List AstNode))
  | 0, _ => throw .fuel
  | fuel + 1, bodyTail => do
      let varName := (← tokField).lexeme
      discard pconsume
      if ← isKind .comma then
        discard pconsume
      let bodyTail ← addNode bodyTail (some (.extrn varName))
      if ← isKind .semicolon then
        return bodyTail
      else
        parseExtrnLoop fuel bodyTail

def parseExtrnS (fuel : Nat) (bodyTail : Option (List AstNode)) :
    ParseM (Option (List AstNode)) := do
  expectAndConsume .extrn
  let bodyTail ← parseExtrnLoop fuel bodyTail
  expectAndConsume .semicolon
  return bodyTail

def parseGotoS : ParseM AstNode := do
  expectAndConsume .goto
  let jumpLableName := (← tokField).lexeme
  discard pconsume
  expectAndConsume .semicolon
  return .goto jumpLableName

def parseReturnS (fuel : Nat) : ParseM AstNode := do
  expectAndConsume .return_
  let exprN ← parseExprF fuel precNone
  expectAndConsume .semicolon
  return .return_ (some exprN)

/-- The optional `[size]` of a declaration in `parse_global_s`, whose token is
taken whatever its kind. -/
def parseGlobalSize : ParseM Nat := do
  if ← isKind .oBracket then
    discard pconsume
    let size := (← tokField).intLit
    discard pconsume
    expectAndConsume .cBracket
    return size
  else
    return 1

/-- The loop that `parse_global_s` makes with `goto comma`. -/
def parseGlobalLoop : Nat → CStr → ParseM Unit
  | 0, _ => throw .fuel
  | fuel + 1, name => do
      let size ← parseGlobalSize
      putToHashSet (← get).globalTable name { kind := .globalVar }
      modify fun p => { p with ast := p.ast ++ [.global name size] }
      if ← isKind .comma then
        discard pconsume
        let name := (← tokField).lexeme
        discard pconsume
        parseGlobalLoop fuel name

def parseGlobalS (fuel : Nat) (name : CStr) : ParseM Unit := do
  parseGlobalLoop fuel name
  expectAndConsume .semicolon

def parseExprS (fuel : Nat) : ParseM (Option AstNode) := do
  if ← isKind .comma then
    discard pconsume
    return none
  else
    let exprN ← parseExprF fuel precNone
    expectAndConsume .semicolon
    return some (.expr exprN)

def parseLableS : ParseM AstNode := do
  let lableName := (← tokField).lexeme
  putToHashSet (← get).tLableTab lableName { kind := .lableS }
  discard pconsume
  discard pconsume
  return .lable lableName

mutual

/-- `parse_statements_f`: the statement, if there is one to append, and the
tail that `auto` and `extrn` have appended to. -/
def parseStatementsF : Nat → List Nat → Nat → Option (List AstNode) →
    ParseM (Option AstNode × Option (List AstNode))
  | 0, _, _, _ => throw .fuel
  | fuel + 1, parent, symtab, bodyTail => do
      let token ← tokField
      let next ← ppeak
      match token.kind with
      | .auto => return (none, ← parseAutoS fuel symtab bodyTail)
      | .extrn => return (none, ← parseExtrnS fuel bodyTail)
      | .goto => return (some (← parseGotoS), bodyTail)
      | .oBrace =>
          let symtab ← initHashSet
          return (some (← parseScopeF fuel parent symtab), bodyTail)
      | .return_ => return (some (← parseReturnS fuel), bodyTail)
      | .if_ => return (some (← parseIfS fuel .if_ parent), bodyTail)
      | .while_ => return (some (← parseWhileS fuel parent), bodyTail)
      | .identifier =>
          if next.any (·.kind == .colon) then
            return (some (← parseLableS), bodyTail)
          else
            return (← parseExprS fuel, bodyTail)
      | _ => return (← parseExprS fuel, bodyTail)

def parseScopeF : Nat → List Nat → Nat → ParseM AstNode
  | 0, _, _ => throw .fuel
  | fuel + 1, parent, symtab => do
      let scopeN : AstScope := { symtab, parent }
      expectAndConsume .oBrace
      let body ← parseScopeBody fuel scopeN []
      expectAndConsume .cBrace
      return .scope scopeN body

/-- The `while` loop of `parse_scope_f`. -/
def parseScopeBody : Nat → AstScope → List AstNode → ParseM (List AstNode)
  | 0, _, _ => throw .fuel
  | fuel + 1, scopeN, body => do
      match ← curr with
      | none => return body
      | some token =>
          if token.kind = .cBrace then
            return body
          else
            let (statement, bodyTail) ←
              parseStatementsF fuel scopeN.chain scopeN.symtab (some body)
            let bodyTail ←
              if statement.isSome then addNode bodyTail statement else pure bodyTail
            parseScopeBody fuel scopeN (bodyTail.getD [])

/-- `parse_if_s`, which wraps its result in the node kind it is given. -/
def parseIfS : Nat → AstKind → List Nat → ParseM AstNode
  | 0, _, _ => throw .fuel
  | fuel + 1, statementKind, parent => do
      expectAndConsume .if_
      expectAndConsume .oPren
      let condition ← parseExprF fuel precNone
      expectAndConsume .cPren
      let ifSymtab ← initHashSet
      let body ← parseScopeF fuel parent ifSymtab
      let chain ← parseIfChain fuel parent
      return if statementKind = .if_ then .if_ condition body chain
        else .elseIf condition body chain

/-- The part of `parse_if_s` after the comment `parse chain`. -/
def parseIfChain : Nat → List Nat → ParseM (Option AstNode)
  | 0, _ => throw .fuel
  | fuel + 1, parent => do
      if ← isKind .else_ then
        discard pconsume
        if ← isKind .if_ then
          return some (← parseIfS fuel .elseIf parent)
        else
          let elseSymtab ← initHashSet
          let elseBody ← parseScopeF fuel parent elseSymtab
          match elseBody.scopeN? with
          | some (scopeN, body) => return some (.else_ scopeN body)
          | none => throw (.fault .wrongMember)
      else
        return none

def parseWhileS : Nat → List Nat → ParseM AstNode
  | 0, _ => throw .fuel
  | fuel + 1, parent => do
      let symtab ← initHashSet
      expectAndConsume .while_
      expectAndConsume .oPren
      let condition ← parseExprF fuel precNone
      expectAndConsume .cPren
      let body ← parseScopeF fuel parent symtab
      return .while_ condition body

end

/-- The `while` loop of `parse_function_s`, with the number of parameters
counted so far. -/
def parseParams : Nat → Nat → Nat → ParseM Nat
  | 0, _, _ => throw .fuel
  | fuel + 1, symtable, params => do
      if (← tokField).kind = .cPren then
        return params
      else
        let parmName := (← tokField).lexeme
        discard pconsume
        -- the kind `PARAM_VAR` is overwritten together with the rest of the entry
        putToHashSet symtable parmName { kind := .autoVar, tempDest := params + 1 }
        if ← isKind .comma then
          discard pconsume
        parseParams fuel symtable (params + 1)

def parseFunctionS (fuel : Nat) (name : CStr) : ParseM AstNode := do
  let symtable ← initHashSet
  let lableTable ← initHashSet
  modify fun p => { p with tLableTab := lableTable }
  expectAndConsume .oPren
  let params ← parseParams fuel symtable 0
  expectAndConsume .cPren
  let paramsTabScope : AstScope := { symtab := symtable, parent := (← get).globalScopeN }
  let (statement, _) ← parseStatementsF fuel paramsTabScope.chain symtable none
  match statement with
  | some body => return .function name symtable lableTable params body
  | none => throw (.fault .nullNode)

/-- The `while` loop of `parser`. -/
def parserLoop : Nat → ParseM Unit
  | 0 => throw .fuel
  | fuel + 1 => do
      match ← curr with
      | none => return
      | some token =>
          if token.kind = .identifier then
            let name := token.lexeme
            discard pconsume
            if (← tokField).kind = .oPren then
              let function ← parseFunctionS fuel name
              modify fun p => { p with ast := p.ast ++ [function] }
            else
              parseGlobalS fuel name
          else if token.kind = .extrn then
            let ast ← parseExtrnS fuel (some (← get).ast)
            modify fun p => { p with ast := ast.getD [] }
          else
            report (.unexpectedToken token.position token.kind)
            discard pconsume
          parserLoop fuel

/-- A depth of recursion that no run over `tokens` tokens exceeds. -/
def parserFuel (tokens : Nat) : Nat := 8 * tokens + 8

def parser : ParseM Unit := fun p => parserLoop (parserFuel p.tok.length) p

end Trident
