import Trident.Foundation.Procedures
import Trident.Parser.Statement

/-! The parser as procedures that call each other: every function and loop that may be
entered again, and the two functions through which it writes to tables and lists. -/

set_option autoImplicit false

namespace Trident

open Foundation

/-- A call of a function, or a turn of a loop, with its arguments. -/
inductive Proc where
  | parseExprF (prec : Precedence)
  | parseExprLoop (prec : Precedence) (left : AstNode)
  | parseFunctionCallS
  | parseCallArgs
  | parseUnaryLopS
  | parseLeftF
  | parseAutoLoop (symtab : Nat) (bodyTail : Option (List AstNode))
  | parseExtrnLoop (bodyTail : Option (List AstNode))
  | parseStatementsF (parent : List Nat) (symtab : Nat) (bodyTail : Option (List AstNode))
  | parseScopeF (parent : List Nat) (symtab : Nat)
  | parseScopeBody (scopeN : AstScope) (body : List AstNode)
  | parseIfS (statementKind : AstKind) (parent : List Nat)
  | parseIfChain (parent : List Nat)
  | parseWhileS (parent : List Nat)
  | parseGlobalLoop (name : CStr)
  | parseParams (symtable params : Nat)
  | parserLoop
  | putToHashSet (id : Nat) (name : CStr) (info : VarInfo)
  | addNode (tail : Option (List AstNode)) (node : Option AstNode)

/-- The function or loop, without the arguments. -/
inductive Routine where
  | parseExprF | parseExprLoop | parseFunctionCallS | parseCallArgs | parseUnaryLopS | parseLeftF
  | parseAutoLoop | parseExtrnLoop | parseStatementsF | parseScopeF | parseScopeBody | parseIfS
  | parseIfChain | parseWhileS | parseGlobalLoop | parseParams | parserLoop | putToHashSet | addNode
  deriving DecidableEq

namespace Proc

def routine : Proc → Routine
  | .parseExprF _ => .parseExprF
  | .parseExprLoop .. => .parseExprLoop
  | .parseFunctionCallS => .parseFunctionCallS
  | .parseCallArgs => .parseCallArgs
  | .parseUnaryLopS => .parseUnaryLopS
  | .parseLeftF => .parseLeftF
  | .parseAutoLoop .. => .parseAutoLoop
  | .parseExtrnLoop _ => .parseExtrnLoop
  | .parseStatementsF .. => .parseStatementsF
  | .parseScopeF .. => .parseScopeF
  | .parseScopeBody .. => .parseScopeBody
  | .parseIfS .. => .parseIfS
  | .parseIfChain _ => .parseIfChain
  | .parseWhileS _ => .parseWhileS
  | .parseGlobalLoop _ => .parseGlobalLoop
  | .parseParams .. => .parseParams
  | .parserLoop => .parserLoop
  | .putToHashSet .. => .putToHashSet
  | .addNode .. => .addNode

abbrev Result : Proc → Type
  | .parseExprF _ | .parseExprLoop .. | .parseFunctionCallS | .parseUnaryLopS | .parseLeftF => AstNode
  | .parseCallArgs | .parseScopeBody .. => List AstNode
  | .parseAutoLoop .. | .parseExtrnLoop _ | .addNode .. => Option (List AstNode)
  | .parseStatementsF .. => Option AstNode × Option (List AstNode)
  | .parseScopeF .. | .parseIfS .. | .parseWhileS _ => AstNode
  | .parseIfChain _ => Option AstNode
  | .parseParams .. => Nat
  | .parseGlobalLoop _ | .parserLoop | .putToHashSet .. => Unit

/-- The function of the parser, with the bound on its depth. -/
def exec (fuel : Nat) : (proc : Proc) → ParseM proc.Result
  | .parseExprF prec => Trident.parseExprF fuel prec
  | .parseExprLoop prec left => Trident.parseExprLoop fuel prec left
  | .parseFunctionCallS => Trident.parseFunctionCallS fuel
  | .parseCallArgs => Trident.parseCallArgs fuel
  | .parseUnaryLopS => Trident.parseUnaryLopS fuel
  | .parseLeftF => Trident.parseLeftF fuel
  | .parseAutoLoop symtab bodyTail => Trident.parseAutoLoop fuel symtab bodyTail
  | .parseExtrnLoop bodyTail => Trident.parseExtrnLoop fuel bodyTail
  | .parseStatementsF parent symtab bodyTail => Trident.parseStatementsF fuel parent symtab bodyTail
  | .parseScopeF parent symtab => Trident.parseScopeF fuel parent symtab
  | .parseScopeBody scopeN body => Trident.parseScopeBody fuel scopeN body
  | .parseIfS statementKind parent => Trident.parseIfS fuel statementKind parent
  | .parseIfChain parent => Trident.parseIfChain fuel parent
  | .parseWhileS parent => Trident.parseWhileS fuel parent
  | .parseGlobalLoop name => Trident.parseGlobalLoop fuel name
  | .parseParams symtable params => Trident.parseParams fuel symtable params
  | .parserLoop => Trident.parserLoop fuel
  | .putToHashSet id name info => Trident.putToHashSet id name info
  | .addNode tail node => Trident.addNode tail node

end Proc

/-- The text of a piece of the parser. -/
abbrev ParseText := ProcBody Stop Parser Proc.Result

/-- The call of a procedure. -/
def Proc.call (proc : Proc) : ParseText proc.Result := .call proc pure

@[simp] theorem Proc.run_call (proc : Proc) (exec : (proc : Proc) → ParseM proc.Result) :
    proc.call.run exec = exec proc := ProcBody.run_call proc

/-! The texts follow the functions of the parser line by line. -/

namespace ParseText

def parseAtomF : ParseText AstNode := do
  let tok ← pconsume
  let tok ← deref tok
  return .atom tok.kind tok.lexeme tok.intLit

def parseAutoSize : ParseText Nat := do
  if ← isKind .oBracket then
    (discard pconsume : ParseM Unit)
    let token ← tokField
    expectAndConsume .int
    expectAndConsume .cBracket
    return token.intLit
  else
    return 1

def parseAutoS (symtab : Nat) (bodyTail : Option (List AstNode)) :
    ParseText (Option (List AstNode)) := do
  expectAndConsume .auto
  let bodyTail ← (Proc.parseAutoLoop symtab bodyTail).call
  expectAndConsume .semicolon
  return bodyTail

def parseExtrnS (bodyTail : Option (List AstNode)) : ParseText (Option (List AstNode)) := do
  expectAndConsume .extrn
  let bodyTail ← (Proc.parseExtrnLoop bodyTail).call
  expectAndConsume .semicolon
  return bodyTail

def parseGotoS : ParseText AstNode := do
  expectAndConsume .goto
  let token ← tokField
  (discard pconsume : ParseM Unit)
  expectAndConsume .semicolon
  return .goto token.lexeme

def parseReturnS : ParseText AstNode := do
  expectAndConsume .return_
  let exprN ← (Proc.parseExprF precNone).call
  expectAndConsume .semicolon
  return .return_ (some exprN)

def parseGlobalSize : ParseText Nat := do
  if ← isKind .oBracket then
    (discard pconsume : ParseM Unit)
    let token ← tokField
    (discard pconsume : ParseM Unit)
    expectAndConsume .cBracket
    return token.intLit
  else
    return 1

def parseGlobalS (name : CStr) : ParseText Unit := do
  (Proc.parseGlobalLoop name).call
  expectAndConsume .semicolon

def parseExprS : ParseText (Option AstNode) := do
  if ← isKind .comma then
    (discard pconsume : ParseM Unit)
    return none
  else
    let exprN ← (Proc.parseExprF precNone).call
    expectAndConsume .semicolon
    return some (.expr exprN)

def parseLableS : ParseText AstNode := do
  let token ← tokField
  let p ← (get : ParseM Parser)
  (Proc.putToHashSet p.tLableTab token.lexeme { kind := .lableS }).call
  (discard pconsume : ParseM Unit)
  (discard pconsume : ParseM Unit)
  return .lable token.lexeme

def parseFunctionS (name : CStr) : ParseText AstNode := do
  let symtable ← initHashSet
  let lableTable ← initHashSet
  (modify fun p => { p with tLableTab := lableTable } : ParseM Unit)
  expectAndConsume .oPren
  let params ← (Proc.parseParams symtable 0).call
  expectAndConsume .cPren
  let p ← (get : ParseM Parser)
  let paramsTabScope : AstScope := { symtab := symtable, parent := p.globalScopeN }
  let (statement, _) ← (Proc.parseStatementsF paramsTabScope.chain symtable none).call
  let body ← (Proc.addNode (some []) statement).call
  match body with
  | some [body] => return .function name symtable lableTable params body
  | _ => throw (m := ParseM) (.fault .nullNode)

end ParseText

def Proc.text : (proc : Proc) → ParseText proc.Result
  | .parseExprF prec => do
      let left ← Proc.parseLeftF.call
      (Proc.parseExprLoop prec left).call
  | .parseExprLoop prec left => do
      match ← curr with
      | none => return left
      | some tok =>
          let opPrec := getOpPrec tok.kind
          if opPrec = precUnknown then
            report (.unknownOperator tok.position tok.kind)
            throw (m := ParseM) .exit
          else if opPrec = precNone ∨ opPrec < prec then
            return left
          else
            (discard pconsume : ParseM Unit)
            let right ← (Proc.parseExprF
              (if isProcLeftAssociative opPrec then opPrec + 1 else opPrec)).call
            (Proc.parseExprLoop prec (.binary left tok.kind right)).call
  | .parseFunctionCallS => do
      let token ← tokField
      (discard pconsume : ParseM Unit)
      expectAndConsume .oPren
      let args ← Proc.parseCallArgs.call
      expectAndConsume .cPren
      return .functionCall token.lexeme args
  | .parseCallArgs => do
      let token ← tokField
      if token.kind = .cPren then
        return []
      else
        let expr ← (Proc.parseExprF precNone).call
        if ← isKind .comma then
          (discard pconsume : ParseM Unit)
        let args ← Proc.parseCallArgs.call
        return expr :: args
  | .parseUnaryLopS => do
      let op ← pconsume
      let op ← deref op
      let left ← Proc.parseLeftF.call
      return .unary op.kind left
  | .parseLeftF => do
      let token ← curr
      let token ← deref token
      let next ← ppeak
      if token.kind = .oPren then
        expectAndConsume .oPren
        let node ← (Proc.parseExprF precNone).call
        expectAndConsume .cPren
        return node
      else if token.kind = .identifier ∧ next.any (·.kind == .oPren) then
        Proc.parseFunctionCallS.call
      else if isUnaryOp token.kind then
        Proc.parseUnaryLopS.call
      else
        let left ← ParseText.parseAtomF
        let token ← tokField
        if token.kind = .oBracket then
          (discard pconsume : ParseM Unit)
          let indexExpr ← (Proc.parseExprF precNone).call
          expectAndConsume .cBracket
          return indexNode left indexExpr
        else
          return left
  | .parseAutoLoop symtab bodyTail => do
      let token ← tokField
      expectAndConsume .identifier
      let size ← ParseText.parseAutoSize
      (Proc.putToHashSet symtab token.lexeme { kind := .autoVar }).call
      let bodyTail ← (Proc.addNode bodyTail (some (.auto token.lexeme size))).call
      if ← isKind .comma then
        (discard pconsume : ParseM Unit)
        (Proc.parseAutoLoop symtab bodyTail).call
      else
        return bodyTail
  | .parseExtrnLoop bodyTail => do
      let token ← tokField
      (discard pconsume : ParseM Unit)
      if ← isKind .comma then
        (discard pconsume : ParseM Unit)
      let bodyTail ← (Proc.addNode bodyTail (some (.extrn token.lexeme))).call
      if ← isKind .semicolon then
        return bodyTail
      else
        (Proc.parseExtrnLoop bodyTail).call
  | .parseStatementsF parent symtab bodyTail => do
      let token ← tokField
      let next ← ppeak
      match token.kind with
      | .auto => return (none, ← ParseText.parseAutoS symtab bodyTail)
      | .extrn => return (none, ← ParseText.parseExtrnS bodyTail)
      | .goto => return (some (← ParseText.parseGotoS), bodyTail)
      | .oBrace =>
          let symtab ← initHashSet
          return (some (← (Proc.parseScopeF parent symtab).call), bodyTail)
      | .return_ => return (some (← ParseText.parseReturnS), bodyTail)
      | .if_ => return (some (← (Proc.parseIfS .if_ parent).call), bodyTail)
      | .while_ => return (some (← (Proc.parseWhileS parent).call), bodyTail)
      | .identifier =>
          if next.any (·.kind == .colon) then
            return (some (← ParseText.parseLableS), bodyTail)
          else
            return (← ParseText.parseExprS, bodyTail)
      | _ => return (← ParseText.parseExprS, bodyTail)
  | .parseScopeF parent symtab => do
      let scopeN : AstScope := { symtab, parent }
      expectAndConsume .oBrace
      let body ← (Proc.parseScopeBody scopeN []).call
      expectAndConsume .cBrace
      return .scope scopeN body
  | .parseScopeBody scopeN body => do
      match ← curr with
      | none => return body
      | some token =>
          if token.kind = .cBrace then
            return body
          else
            let (statement, bodyTail) ←
              (Proc.parseStatementsF scopeN.chain scopeN.symtab (some body)).call
            let bodyTail ←
              if statement.isSome then (Proc.addNode bodyTail statement).call else pure bodyTail
            (Proc.parseScopeBody scopeN (bodyTail.getD [])).call
  | .parseIfS statementKind parent => do
      expectAndConsume .if_
      expectAndConsume .oPren
      let condition ← (Proc.parseExprF precNone).call
      expectAndConsume .cPren
      let ifSymtab ← initHashSet
      let body ← (Proc.parseScopeF parent ifSymtab).call
      let chain ← (Proc.parseIfChain parent).call
      return if statementKind = .if_ then .if_ condition body chain
        else .elseIf condition body chain
  | .parseIfChain parent => do
      if ← isKind .else_ then
        (discard pconsume : ParseM Unit)
        if ← isKind .if_ then
          return some (← (Proc.parseIfS .elseIf parent).call)
        else
          let elseSymtab ← initHashSet
          let elseBody ← (Proc.parseScopeF parent elseSymtab).call
          match elseBody.scopeN? with
          | some (scopeN, body) => return some (.else_ scopeN body)
          | none => throw (m := ParseM) (.fault .wrongMember)
      else
        return none
  | .parseWhileS parent => do
      let symtab ← initHashSet
      expectAndConsume .while_
      expectAndConsume .oPren
      let condition ← (Proc.parseExprF precNone).call
      expectAndConsume .cPren
      let body ← (Proc.parseScopeF parent symtab).call
      return .while_ condition body
  | .parseGlobalLoop name => do
      let size ← ParseText.parseGlobalSize
      let p ← (get : ParseM Parser)
      (Proc.putToHashSet p.globalTable name { kind := .globalVar }).call
      (modify fun p => { p with ast := p.ast ++ [.global name size] } : ParseM Unit)
      if ← isKind .comma then
        (discard pconsume : ParseM Unit)
        let token ← tokField
        (discard pconsume : ParseM Unit)
        (Proc.parseGlobalLoop token.lexeme).call
  | .parseParams symtable params => do
      let token ← tokField
      if token.kind = .cPren then
        return params
      else
        let token ← tokField
        (discard pconsume : ParseM Unit)
        (Proc.putToHashSet symtable token.lexeme { kind := .autoVar, tempDest := params + 1 }).call
        if ← isKind .comma then
          (discard pconsume : ParseM Unit)
        (Proc.parseParams symtable (params + 1)).call
  | .parserLoop => do
      match ← curr with
      | none => return
      | some token =>
          if token.kind = .identifier then
            let name := token.lexeme
            (discard pconsume : ParseM Unit)
            let next ← tokField
            if next.kind = .oPren then
              let function ← ParseText.parseFunctionS name
              (modify fun p => { p with ast := p.ast ++ [function] } : ParseM Unit)
            else
              ParseText.parseGlobalS name
          else if token.kind = .extrn then
            let p ← (get : ParseM Parser)
            let ast ← ParseText.parseExtrnS (some p.ast)
            (modify fun p => { p with ast := ast.getD [] } : ParseM Unit)
          else
            report (.unexpectedToken token.position token.kind)
            (discard pconsume : ParseM Unit)
          Proc.parserLoop.call
  | .putToHashSet id name info => (Trident.putToHashSet id name info : ParseM Unit)
  | .addNode tail node => (Trident.addNode tail node : ParseM (Option (List AstNode)))

namespace Proc

section Texts

variable (fuel : Nat)

@[simp] theorem parseAtomF_run : ParseText.parseAtomF.run (exec fuel) = parseAtomF := by
  simp [ParseText.parseAtomF, parseAtomF]

@[simp] theorem parseAutoSize_run : ParseText.parseAutoSize.run (exec fuel) = parseAutoSize := by
  simp [ParseText.parseAutoSize, parseAutoSize]

@[simp] theorem parseGlobalSize_run :
    ParseText.parseGlobalSize.run (exec fuel) = parseGlobalSize := by
  simp [ParseText.parseGlobalSize, parseGlobalSize]

@[simp] theorem parseGotoS_run : ParseText.parseGotoS.run (exec fuel) = parseGotoS := by
  simp [ParseText.parseGotoS, parseGotoS]

@[simp] theorem parseAutoS_run (symtab : Nat) (bodyTail : Option (List AstNode)) :
    (ParseText.parseAutoS symtab bodyTail).run (exec fuel) = parseAutoS fuel symtab bodyTail := by
  simp [ParseText.parseAutoS, parseAutoS, call, exec, ProcBody.run]

@[simp] theorem parseExtrnS_run (bodyTail : Option (List AstNode)) :
    (ParseText.parseExtrnS bodyTail).run (exec fuel) = parseExtrnS fuel bodyTail := by
  simp [ParseText.parseExtrnS, parseExtrnS, call, exec, ProcBody.run]

@[simp] theorem parseReturnS_run : ParseText.parseReturnS.run (exec fuel) = parseReturnS fuel := by
  simp [ParseText.parseReturnS, parseReturnS, call, exec, ProcBody.run]

@[simp] theorem parseGlobalS_run (name : CStr) :
    (ParseText.parseGlobalS name).run (exec fuel) = parseGlobalS fuel name := by
  simp [ParseText.parseGlobalS, parseGlobalS, call, exec, ProcBody.run]

@[simp] theorem parseExprS_run : ParseText.parseExprS.run (exec fuel) = parseExprS fuel := by
  simp [ParseText.parseExprS, parseExprS, call, exec, ProcBody.run]

@[simp] theorem parseLableS_run : ParseText.parseLableS.run (exec fuel) = parseLableS := by
  simp [ParseText.parseLableS, parseLableS, call, exec, ProcBody.run]

@[simp] theorem parseFunctionS_run (name : CStr) :
    (ParseText.parseFunctionS name).run (exec fuel) = parseFunctionS fuel name := by
  simp only [ParseText.parseFunctionS, parseFunctionS, call, exec, ProcBody.run_bind, ProcBody.run_lift,
    ProcBody.run_call]
  iterate 7
    apply bind_congr
    intro
  apply bind_congr
  intro ⟨statement, _⟩
  cases statement <;> rfl

end Texts

theorem exec_succ (fuel : Nat) (proc : Proc) : proc.exec (fuel + 1) = proc.text.run (exec fuel) := by
  cases proc with
  | parseExprF prec => simp [exec, text, call, ProcBody.run, Trident.parseExprF]
  | parseExprLoop prec left =>
      simp only [exec, text, call, Trident.parseExprLoop, ProcBody.run_bind, ProcBody.run_lift]
      congr 1
      funext tok
      cases tok <;> simp [exec, ProcBody.run]
  | parseFunctionCallS => simp [exec, text, call, ProcBody.run, Trident.parseFunctionCallS]
  | parseCallArgs => simp [exec, text, call, ProcBody.run, Trident.parseCallArgs]
  | parseUnaryLopS => simp [exec, text, call, ProcBody.run, Trident.parseUnaryLopS]
  | parseLeftF => simp [exec, text, call, ProcBody.run, Trident.parseLeftF]
  | parseAutoLoop symtab bodyTail => simp [exec, text, call, ProcBody.run, Trident.parseAutoLoop]
  | parseExtrnLoop bodyTail => simp [exec, text, call, ProcBody.run, Trident.parseExtrnLoop]
  | parseStatementsF parent symtab bodyTail =>
      simp only [exec, text, call, Trident.parseStatementsF, ProcBody.run_bind, ProcBody.run_lift]
      congr 1
      funext token
      congr 1
      funext next
      cases token.kind <;> simp [exec, ProcBody.run]
  | parseScopeF parent symtab => simp [exec, text, call, ProcBody.run, Trident.parseScopeF]
  | parseScopeBody scopeN body =>
      simp only [exec, text, call, Trident.parseScopeBody, ProcBody.run_bind, ProcBody.run_lift]
      congr 1
      funext token
      cases token <;> simp [exec, ProcBody.run]
  | parseIfS statementKind parent => simp [exec, text, call, ProcBody.run, Trident.parseIfS]
  | parseIfChain parent =>
      simp only [exec, text, Trident.parseIfChain, ProcBody.run_bind, ProcBody.run_lift]
      congr 1
      funext chained
      cases chained with
      | false => simp
      | true =>
          simp only [if_true, ProcBody.run_bind, ProcBody.run_lift]
          congr 1
          funext _
          congr 1
          funext again
          cases again with
          | true => simp [call, ProcBody.run, exec]
          | false =>
              simp only [Bool.false_eq_true, if_false, ProcBody.run_bind, ProcBody.run_lift]
              congr 1
              funext elseSymtab
              congr 1
              · exact (Proc.run_call (.parseScopeF parent elseSymtab) (exec fuel)).symm
              funext elseBody
              cases elseBody.scopeN? <;> simp
  | parseWhileS parent => simp [exec, text, call, ProcBody.run, Trident.parseWhileS]
  | parseGlobalLoop name => simp [exec, text, call, ProcBody.run, Trident.parseGlobalLoop]
  | parseParams symtable params => simp [exec, text, call, ProcBody.run, Trident.parseParams]
  | parserLoop =>
      simp only [exec, text, call, Trident.parserLoop, ProcBody.run_bind, ProcBody.run_lift]
      congr 1
      funext token
      cases token <;> simp [exec, ProcBody.run]
  | putToHashSet id name info => simp [exec, text]
  | addNode tail node => simp [exec, text]

end Proc

def parserProcedures : Procedures Stop Parser Proc.Result where
  text := Proc.text
  exec := Proc.exec
  exec_succ := Proc.exec_succ

end Trident
