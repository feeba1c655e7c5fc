import Trident.Ir.Node
import Trident.Parser.State

/-! The IR generator, from `ir.c`. The list behind `block_tail` is a field of
the context, and the functions that append to it append to that field. -/

set_option autoImplicit false

namespace Trident

/-- `Ir`, with the list of the module, the list of the current function, and
the hash sets left by the parser. -/
structure Ir where
  heap : HsHeap
  tempC : Nat := 0
  lableC : Nat := 0
  irTail : List IrTop := []
  nodes : List IrNode := []
  tLableTab : Nat := 0
  stderr : List Diag := []

abbrev IrM := EStateM Stop Ir

def irFatal {α : Type} (diag : Diag) : IrM α := do
  modify fun ir => { ir with stderr := ir.stderr ++ [diag] }
  throw .exit

/-- `add_ir_node` on the current function. -/
def addIrNode (node : IrNode) : IrM Unit :=
  modify fun ir => { ir with nodes := ir.nodes ++ [node] }

/-- `add_ir_node` on the module. -/
def addIrTop (node : IrTop) : IrM Unit :=
  modify fun ir => { ir with irTail := ir.irTail ++ [node] }

/-- `++ir->temp_c` -/
def newTemp : IrM Nat :=
  modifyGet fun ir => (ir.tempC + 1, { ir with tempC := ir.tempC + 1 })

/-- `++(ir->lable_c)` -/
def newLable : IrM Nat :=
  modifyGet fun ir => (ir.lableC + 1, { ir with lableC := ir.lableC + 1 })

def emmitCall (name : CStr) (args : List Nat) : IrM Nat := do
  let t ← newTemp
  addIrNode (.call t name args)
  return t

def emitConst (kind : IrOp) (value : Nat) : IrM Nat := do
  let t ← newTemp
  addIrNode (.operation t kind 0 0 value)
  return t

def loadGlobal (name : CStr) : IrM Nat := do
  let t ← newTemp
  addIrNode (.operation t .globalL 0 0 0 name)
  return t

def storeGlobal (name : CStr) (value : Nat) : IrM Unit :=
  addIrNode (.operation 0 .globalS 0 value 0 name)

def emitGlobalAddr (name : CStr) : IrM Nat := do
  let t ← newTemp
  addIrNode (.operation t .globalAddr 0 0 0 name)
  return t

def emitOp (op : IrOp) (a b : Nat) : IrM Nat := do
  let t ← newTemp
  addIrNode (.operation t op a b)
  return t

def emitStore (value addr : Nat) : IrM Unit :=
  addIrNode (.operation 0 .store addr value)

/-- A read access to a hash set, which must not have been freed. -/
def readHashSet (id : Nat) (name : CStr) : IrM (Option VarInfo) := do
  match (← get).heap.sets id, name with
  | none, _ => throw (.fault .freedTable)
  | some _, none => throw (.fault .nullName)
  | some table, some name => return table.get name

/-- `free_hash_set`. -/
def freeHashSet (id : Nat) : IrM Unit := do
  match (← get).heap.sets id with
  | none => throw (.fault .freedTable)
  | some _ => modify fun ir => { ir with heap := ir.heap.free id }

/-- `info->temp_dest = temp`, where `info` was found in the set `id`. -/
def setTempDest (id : Nat) (name : CStr) (info : VarInfo) (temp : Nat) : IrM Unit := do
  match (← get).heap.sets id, name with
  | some table, some name =>
      modify fun ir =>
        { ir with heap := ir.heap.write id (table.put name { info with tempDest := temp }) }
  | _, _ => throw (.fault .freedTable)

/-- `lookup_symbol`: the entry found and the set it is in. -/
def lookupSymbol : List Nat → CStr → IrM (Option (Nat × VarInfo))
  | [], _ => return none
  | id :: parent, name => do
      match ← readHashSet id name with
      | some info => return some (id, info)
      | none => lookupSymbol parent name

def lookupOrDie (scope : List Nat) (name : CStr) : IrM VarInfo := do
  match ← lookupSymbol scope name with
  | some (_, info) => return info
  | none => irFatal (.undefinedVariable name)

def binopToIrop : TokenKind → IrOp
  | .add => .add
  | .sub => .sub
  | .mul => .mul
  | .dev => .div
  | .mod => .mod
  | .bitAnd => .and
  | .bitOr => .or
  | .bitshiftL => .shl
  | .bitshiftR => .shr
  | .equal => .eq
  | .notEqual => .ne
  | .greater => .gt
  | .greaterEqual => .ge
  | .lesser => .lt
  | .lesserEqual => .le
  | _ => .unset

/-- `LValue`, with the field that its kind uses. -/
inductive LValue where
  | local_ (addrTemp : Nat)
  | global (name : CStr)
  deriving DecidableEq, Repr

/-- The lvalue of an identifier in `ir_lvalue`. -/
def irIdentLvalue (scope : List Nat) (name : CStr) : IrM LValue := do
  let var ← lookupOrDie scope name
  if var.kind = .autoVar ∨ var.kind = .paramVar then
    if var.tempDest = 0 then
      irFatal (.noStorageSlot name)
    else
      return .local_ var.tempDest
  else if var.kind = .globalVar then
    return .global name
  else
    irFatal (.unsupportedVariable name)

def irLoadLvalue : LValue → IrM Nat
  | .global name => loadGlobal name
  | .local_ addrTemp => emitOp .load addrTemp 0

def irStoreLvalue (value : Nat) : LValue → IrM Unit
  | .global name => storeGlobal name value
  | .local_ addrTemp => emitStore value addrTemp

def irAddrOfLvalue : LValue → IrM Nat
  | .global name => emitGlobalAddr name
  | .local_ addrTemp => emitOp .address addrTemp 0

/-- The case of an identifier in `ir_expr_f`. -/
def irIdentifier (scope : List Nat) (name : CStr) : IrM Nat := do
  let var ← lookupOrDie scope name
  if var.kind = .autoVar ∨ var.kind = .paramVar then
    if var.tempDest = 0 then
      irFatal (.noStorageSlot name)
    else
      emitOp .load var.tempDest 0
  else if var.kind = .globalVar then
    loadGlobal name
  else
    irFatal (.undefinedVariable name)

mutual

/-- `ir_expr_f` on a node that is not null. -/
def irExprF : AstNode → List Nat → IrM Nat
  | .atom kind value intLit, scope =>
      match kind with
      | .int => emitConst .const intLit
      | .identifier => irIdentifier scope value
      | .string => emitConst .data intLit
      | _ => irFatal (.unhandledAtom kind value)
  | .unary op operand, scope =>
      match op with
      | .bitAnd => do
          let lv ← irLvalue operand scope
          irAddrOfLvalue lv
      | .mul => do
          let addr ← irExprF operand scope
          emitOp .load addr 0
      | .sub => do
          let v ← irExprF operand scope
          emitOp .neg v 0
      | .not => do
          let v ← irExprF operand scope
          let zeroTemp ← emitConst .const 0
          emitOp .eq v zeroTemp
      | .inc => do
          let lv ← irLvalue operand scope
          let old ← irLoadLvalue lv
          let one ← emitConst .const 1
          let nv ← emitOp .add old one
          irStoreLvalue nv lv
          return nv
      | .dec => do
          let lv ← irLvalue operand scope
          let old ← irLoadLvalue lv
          let one ← emitConst .const 1
          let nv ← emitOp .sub old one
          irStoreLvalue nv lv
          return nv
      | _ => irFatal (.unhandledUnary op)
  | .binary left op right, scope =>
      if op = .assign then do
        let val ← irExprF right scope
        let lv ← irLvalue left scope
        irStoreLvalue val lv
        return val
      else if binopToIrop op = .unset then
        irFatal (.unhandledBinary op)
      else do
        let a ← irExprF left scope
        let b ← irExprF right scope
        emitOp (binopToIrop op) a b
  | .functionCall name args, scope => do
      let args ← irArgs args scope
      emmitCall name args
  | node, _ => irFatal (.unhandledNode node.kind)
  termination_by structural node => node

def irLvalue : AstNode → List Nat → IrM LValue
  | .atom kind value _, scope =>
      if kind = .identifier then irIdentLvalue scope value else irFatal .notAnLvalue
  | .unary op node, scope =>
      if op = .mul then do
        let addr ← irExprF node scope
        return .local_ addr
      else irFatal .notAnLvalue
  | _, _ => irFatal .notAnLvalue
  termination_by structural node => node

/-- The `for` loop over the arguments of a call in `ir_expr_f`. -/
def irArgs : List AstNode → List Nat → IrM (List Nat)
  | [], _ => return []
  | arg :: args, scope => do
      let t ← irExprF arg scope
      let ts ← irArgs args scope
      return t :: ts
  termination_by structural args => args

end

def irAutoS (name : CStr) (scope : List Nat) : IrM Unit := do
  match ← lookupSymbol scope name with
  | none => irFatal (.symbolNotFound name)
  | some (id, info) =>
      let t ← emitOp .alloc 0 0
      setTempDest id name info t

/-- The number of a named label, given at its first `goto` or label. -/
def irNamedLable (name : CStr) : IrM Nat := do
  let lableTab := (← get).tLableTab
  match ← readHashSet lableTab name with
  | none => irFatal (.noLable name)
  | some info =>
      if info.tempDest = 0 then
        let id ← newLable
        setTempDest lableTab name info id
        return id
      else
        return info.tempDest

def irLableS (name : CStr) : IrM Unit := do
  let id ← irNamedLable name
  addIrNode (.label id)

def irGotoS (name : CStr) : IrM Unit := do
  let id ← irNamedLable name
  addIrNode (.jump id)

def irExtrnS (name : CStr) : IrM Unit := addIrTop (.extrn name)

def irReturnS (node : Option AstNode) (scope : List Nat) : IrM Unit := do
  match node with
  | none => addIrNode (.ret 0)
  | some node =>
      let retTemp ← irExprF node scope
      addIrNode (.ret retTemp)

/-- `node->scope_n->parent` for the body of an `if` or a `while`. -/
def bodyParent (body : AstNode) : IrM (List Nat) :=
  match body.scopeN? with
  | some (scopeN, _) => return scopeN.parent
  | none => throw (.fault .wrongMember)

/-- `ir_scope` on a node that stores `scope_n`, given the loop over its body. -/
def irScopeWith (scopeN : AstScope) (body : IrM Unit) : IrM Unit := do
  body
  freeHashSet scopeN.symtab

/-- `ir_if_chain_s` on an `if` or an `else if`, given its body and the rest of
the chain. -/
def irIfWith (condition : AstNode) (scope : List Nat) (endLabelId : Nat)
    (body chain : IrM Unit) : IrM Unit := do
  let thenLabel ← newLable
  let nextLabel ← newLable
  let conditionTemp ← irExprF condition scope
  addIrNode (.branch thenLabel nextLabel conditionTemp)
  addIrNode (.label thenLabel)
  body
  addIrNode (.jump endLabelId)
  addIrNode (.label nextLabel)
  chain

/-- `ir_while_s`, given its body. -/
def irWhileWith (condition : AstNode) (scope : List Nat) (body : IrM Unit) : IrM Unit := do
  let condLabel ← newLable
  let bodyLabel ← newLable
  let exitLabel ← newLable
  addIrNode (.label condLabel)
  let conditionTemp ← irExprF condition scope
  addIrNode (.branch bodyLabel exitLabel conditionTemp)
  addIrNode (.label bodyLabel)
  body
  addIrNode (.jump condLabel)
  addIrNode (.label exitLabel)

mutual

/-- The `for` loop of `ir_scope`. -/
def irScopeBody : List AstNode → List Nat → IrM Unit
  | [], _ => return
  | curr :: next, scope => do
      irStatements curr scope
      irScopeBody next scope
  termination_by structural nodes => nodes

/-- The body of an `if` or a `while`, visited when it is a scope. -/
def irBody : AstNode → IrM Unit
  | .scope scopeN body => irScopeWith scopeN (irScopeBody body scopeN.chain)
  | _ => return
  termination_by structural node => node

/-- `ir_if_chain_s`. -/
def irIfChainS : AstNode → List Nat → Nat → IrM Unit
  | .if_ condition body chain, scope, endLabelId =>
      irIfWith condition scope endLabelId (irBody body) (irChain chain scope endLabelId)
  | .elseIf condition body chain, scope, endLabelId =>
      irIfWith condition scope endLabelId (irBody body) (irChain chain scope endLabelId)
  | .else_ scopeN body, _, _ => irScopeWith scopeN (irScopeBody body scopeN.chain)
  | _, _, _ => return
  termination_by structural node => node

/-- `ir_if_chain_s` on the rest of a chain, which may be null. -/
def irChain : Option AstNode → List Nat → Nat → IrM Unit
  | none, _, _ => return
  | some chain, scope, endLabelId => irIfChainS chain scope endLabelId
  termination_by structural chain => chain

def irStatements : AstNode → List Nat → IrM Unit
  | .return_ node, scope => irReturnS node scope
  | .scope scopeN body, _ => irScopeWith scopeN (irScopeBody body scopeN.chain)
  | .auto name _, scope => irAutoS name scope
  | .extrn name, _ => irExtrnS name
  | .expr node, scope => discard (irExprF node scope)
  | .if_ condition body chain, _ => do
      -- `ir_if_s`, whose call of `ir_if_chain_s` is on this same node
      let scope ← bodyParent body
      let endLabelId ← newLable
      irIfWith condition scope endLabelId (irBody body) (irChain chain scope endLabelId)
      addIrNode (.label endLabelId)
  | .while_ condition body, _ => do
      let scope ← bodyParent body
      irWhileWith condition scope (irBody body)
  | .lable name, _ => irLableS name
  | .goto name, _ => irGotoS name
  | node, _ => irFatal (.unhandledStatement node.kind)
  termination_by structural node => node

end

def irScope : AstNode → IrM Unit
  | .scope scopeN body => irScopeWith scopeN (irScopeBody body scopeN.chain)
  | .else_ scopeN body => irScopeWith scopeN (irScopeBody body scopeN.chain)
  | _ => throw (.fault .wrongMember)

/-- The code for the incoming parameters in `ir_function_s`, from parameter
`i` on. -/
def irParams : Nat → Nat → IrM Unit
  | 0, _ => return
  | params + 1, i => do
      let slot ← emitOp .alloc 0 0
      emitStore i slot
      addIrNode (.operation i .address slot 0)
      irParams params (i + 1)

def irFunctionS : AstNode → IrM IrTop
  | .function name paramsTab lableTab params body => do
      modify fun ir => { ir with tLableTab := lableTab, tempC := params, lableC := 0, nodes := [] }
      let entryLabel ← newLable
      addIrNode (.label entryLabel)
      irParams params 1
      irScope body
      unless (← get).nodes.getLast?.any (·.isRet) do
        let zeroTemp ← emitConst .const 0
        addIrNode (.ret zeroTemp)
      freeHashSet paramsTab
      freeHashSet lableTab
      return .function name params (← get).nodes
  | _ => throw (.fault .wrongMember)

/-- The `while` loop of `gen_ir`. -/
def genIrLoop : List AstNode → IrM Unit
  | [] => return
  | curr :: next => do
      match curr with
      | .function name paramsTab lableTab params body =>
          addIrTop (← irFunctionS (.function name paramsTab lableTab params body))
      | .global name size => addIrTop (.global name size)
      | .extrn name => irExtrnS name
      | _ => pure ()
      genIrLoop next

/-- The context `init_ir` makes for a parsed program. -/
def initIr (p : Parser) : Ir := { heap := p.heap }

def genIr (module : String) (ast : List AstNode) : IrM Unit := do
  addIrTop (.module module)
  genIrLoop ast

end Trident
