import Trident.Diagnostics

/-! The parsing context and its token operations, from `parser.h` and the end
of `parser.c`. -/

set_option autoImplicit false

namespace Trident

/-- `Parser`. The field `tok` holds the current token and all tokens after it,
so the null pointer is `[]`; `ast` is the list behind `ast_head`. -/
structure Parser where
  tok : List Token
  heap : HsHeap
  globalTable : Nat
  ast : List AstNode := []
  tLableTab : Nat := 0
  stderr : List Diag := []

abbrev ParseM := EStateM Stop Parser

/-- `init_parser`, with the tokens the lexer produced. -/
def initParser (tokens : List Token) : Parser :=
  let (globalTable, heap) := HsHeap.initHashSet {}
  { tok := tokens, heap, globalTable }

/-- `p->global_scope_n`. -/
def Parser.globalScopeN (p : Parser) : List Nat := [p.globalTable]

def report (diag : Diag) : ParseM Unit :=
  modify fun p => { p with stderr := p.stderr ++ [diag] }

def ppeak : ParseM (Option Token) := return (← get).tok.tail.head?

def curr : ParseM (Option Token) := return (← get).tok.head?

def pconsume : ParseM (Option Token) :=
  modifyGet fun p => (p.tok.head?, { p with tok := p.tok.tail })

/-- Reading a field of a token through a pointer. -/
def deref : Option Token → ParseM Token
  | none => throw (.fault .nullToken)
  | some token => return token

/-- `p->tok->...` -/
def tokField : ParseM Token := do deref (← curr)

def isKind (kind : TokenKind) : ParseM Bool :=
  return (← get).tok.head?.any fun token => token.kind == kind

/-- At the end of the input `expect_and_consume` prints the position of the
token it has just found to be null. -/
def expectAndConsume (kind : TokenKind) : ParseM Unit := do
  let token ← tokField
  if kind ≠ token.kind then
    report (.expected token.position kind token.kind)
  else
    discard pconsume

/-- `add_node`. A tail pointer is the list it ends, and may itself be null. -/
def addNode (tail : Option (List AstNode)) (node : Option AstNode) :
    ParseM (Option (List AstNode)) :=
  match node, tail with
  | some node, some nodes => return some (nodes ++ [node])
  | _, _ => throw (.fault .nullNode)

def initHashSet : ParseM Nat :=
  modifyGet fun p =>
    let (id, heap) := p.heap.initHashSet
    (id, { p with heap })

def putToHashSet (id : Nat) (name : CStr) (info : VarInfo) : ParseM Unit := do
  match name, (← get).heap.sets id with
  | none, _ => throw (.fault .nullName)
  | some _, none => throw (.fault .freedTable)
  | some name, some table =>
      modify fun p => { p with heap := p.heap.write id (table.put name info) }

end Trident
