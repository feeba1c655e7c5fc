import Trident.Parser.Printing

/-! Program trees, the texts they are printed as, and the nodes the parser is to give
back for them. -/

set_option autoImplicit false

namespace Trident

/-- A declared name with the literal of its size. -/
structure Declared where
  name : Name
  size : Option (CStr × Nat)

mutual

/-- Statements; a `return` without its expression is one of them. -/
inductive StmtTree where
  | scope (body : List StmtTree)
  | auto (first : Declared) (more : List Declared)
  | extrn (first : Name) (more : List Name)
  | goto (name : Name)
  | lable (name : Name)
  | return_ (value : Option ExprTree)
  | if_ (condition : ExprTree) (body : List StmtTree) (chain : ChainTree)
  | while_ (condition : ExprTree) (body : List StmtTree)
  | expr (value : ExprTree)

/-- What follows the first branch of an `if`. -/
inductive ChainTree where
  | done
  | elseIf (condition : ExprTree) (body : List StmtTree) (chain : ChainTree)
  | else_ (body : List StmtTree)

end

inductive TopTree where
  | function (name : Name) (params : List Name) (body : List StmtTree)
  | globals (first : Declared) (more : List Declared)
  | extrn (first : Name) (more : List Name)

section Text

def printSize : Option (CStr × Nat) → List Spelled
  | none => []
  | some (value, intLit) => [.mark .oBracket, .atom .int value intLit, .mark .cBracket]

def printName (name : Name) : List Spelled := [.name (some name)]

def Declared.print (declared : Declared) : List Spelled :=
  .name (some declared.name) :: printSize declared.size

/-- Each item behind a comma. -/
def printMore {α : Type} (print : α → List Spelled) (items : List α) : List Spelled :=
  items.flatMap fun item => .mark .comma :: print item

def commaList {α : Type} (print : α → List Spelled) (first : α) (more : List α) : List Spelled :=
  print first ++ printMore print more

def printParams : List Name → List Spelled
  | [] => []
  | first :: more => commaList printName first more

/-- `if (...)` and `while (...)`. -/
def printCondition (keyword : TokenKind) (condition : ExprTree) : List Spelled :=
  .mark keyword :: .mark .oPren :: (condition.print ++ [.mark .cPren])

def braced (text : List Spelled) : List Spelled := .mark .oBrace :: (text ++ [.mark .cBrace])

def printReturned : Option ExprTree → List Spelled
  | none => []
  | some value => value.print

mutual

def StmtTree.print : StmtTree → List Spelled
  | .scope body => braced (printBody body)
  | .auto first more => .mark .auto :: (commaList Declared.print first more ++ [.mark .semicolon])
  | .extrn first more => .mark .extrn :: (commaList printName first more ++ [.mark .semicolon])
  | .goto name => [.mark .goto, .name (some name), .mark .semicolon]
  | .lable name => [.name (some name), .mark .colon]
  | .return_ value => .mark .return_ :: (printReturned value ++ [.mark .semicolon])
  | .if_ condition body chain =>
      printCondition .if_ condition ++ (braced (printBody body) ++ chain.print)
  | .while_ condition body => printCondition .while_ condition ++ braced (printBody body)
  | .expr value => value.print ++ [.mark .semicolon]
  termination_by structural stmt => stmt

def ChainTree.print : ChainTree → List Spelled
  | .done => []
  | .elseIf condition body chain =>
      .mark .else_ :: (printCondition .if_ condition ++ (braced (printBody body) ++ chain.print))
  | .else_ body => .mark .else_ :: braced (printBody body)
  termination_by structural chain => chain

def printBody : List StmtTree → List Spelled
  | [] => []
  | stmt :: body => stmt.print ++ printBody body
  termination_by structural body => body

end

def TopTree.print : TopTree → List Spelled
  | .function name params body =>
      .name (some name) :: .mark .oPren ::
        (printParams params ++ .mark .cPren :: braced (printBody body))
  | .globals first more => commaList Declared.print first more ++ [.mark .semicolon]
  | .extrn first more => .mark .extrn :: (commaList printName first more ++ [.mark .semicolon])

def printProgram (program : List TopTree) : List Spelled := program.flatMap TopTree.print

end Text

section Nodes

/-- The number of cells: one where no size is written. -/
def Declared.count (declared : Declared) : Nat :=
  match declared.size with
  | none => 1
  | some (_, intLit) => intLit

def Declared.auto (declared : Declared) : AstNode := .auto (some declared.name) declared.count

def Declared.global (declared : Declared) : AstNode := .global (some declared.name) declared.count

def externNode (name : Name) : AstNode := .extrn (some name)

mutual

/-- How many scopes there are, each with a hash set of its own. -/
def StmtTree.scopes : StmtTree → Nat
  | .scope body => 1 + bodyScopes body
  | .if_ _ body chain => 1 + bodyScopes body + chain.scopes
  | .while_ _ body => 1 + bodyScopes body
  | .auto .. | .extrn .. | .goto _ | .lable _ | .return_ _ | .expr _ => 0
  termination_by structural stmt => stmt

def ChainTree.scopes : ChainTree → Nat
  | .done => 0
  | .elseIf _ body chain => 1 + bodyScopes body + chain.scopes
  | .else_ body => 1 + bodyScopes body
  termination_by structural chain => chain

def bodyScopes : List StmtTree → Nat
  | [] => 0
  | stmt :: body => stmt.scopes + bodyScopes body
  termination_by structural body => body

end

mutual

/-- The nodes of a statement in the scope of `scope`, where the hash sets from `next` on
are given out in the order of the scopes. -/
def StmtTree.nodes (scope : List Nat) (next : Nat) : StmtTree → List AstNode
  | .scope body => [.scope ⟨next, scope⟩ (bodyNodes (next :: scope) (next + 1) body)]
  | .auto first more => (first :: more).map Declared.auto
  | .extrn first more => (first :: more).map externNode
  | .goto name => [.goto (some name)]
  | .lable name => [.lable (some name)]
  | .return_ value => [.return_ (value.map ExprTree.lowered)]
  | .if_ condition body chain =>
      [.if_ condition.lowered (.scope ⟨next, scope⟩ (bodyNodes (next :: scope) (next + 1) body))
        (chain.node scope (next + 1 + bodyScopes body))]
  | .while_ condition body =>
      [.while_ condition.lowered
        (.scope ⟨next, scope⟩ (bodyNodes (next :: scope) (next + 1) body))]
  | .expr value => [.expr value.lowered]
  termination_by structural stmt => stmt

def ChainTree.node (scope : List Nat) (next : Nat) : ChainTree → Option AstNode
  | .done => none
  | .elseIf condition body chain =>
      some (.elseIf condition.lowered
        (.scope ⟨next, scope⟩ (bodyNodes (next :: scope) (next + 1) body))
        (chain.node scope (next + 1 + bodyScopes body)))
  | .else_ body => some (.else_ ⟨next, scope⟩ (bodyNodes (next :: scope) (next + 1) body))
  termination_by structural chain => chain

def bodyNodes (scope : List Nat) (next : Nat) : List StmtTree → List AstNode
  | [] => []
  | stmt :: body => stmt.nodes scope next ++ bodyNodes scope (next + stmt.scopes) body
  termination_by structural body => body

end

/-- A function has a set for its parameters and one for its labels. -/
def TopTree.scopes : TopTree → Nat
  | .function _ _ body => 3 + bodyScopes body
  | .globals .. | .extrn .. => 0

def TopTree.nodes (globalTable next : Nat) : TopTree → List AstNode
  | .function name params body =>
      [.function (some name) next (next + 1) params.length
        (.scope ⟨next + 2, [next, globalTable]⟩
          (bodyNodes [next + 2, next, globalTable] (next + 3) body))]
  | .globals first more => (first :: more).map Declared.global
  | .extrn first more => (first :: more).map externNode

def programNodes (globalTable next : Nat) : List TopTree → List AstNode
  | [] => []
  | top :: program => top.nodes globalTable next ++ programNodes globalTable (next + top.scopes) program

end Nodes

mutual

/-- Every `return` has its expression. -/
def StmtTree.Full : StmtTree → Prop
  | .return_ value => value.isSome
  | .scope body => FullBody body
  | .if_ _ body chain => FullBody body ∧ chain.Full
  | .while_ _ body => FullBody body
  | .auto .. | .extrn .. | .goto _ | .lable _ | .expr _ => True
  termination_by structural stmt => stmt

def ChainTree.Full : ChainTree → Prop
  | .done => True
  | .elseIf _ body chain => FullBody body ∧ chain.Full
  | .else_ body => FullBody body
  termination_by structural chain => chain

def FullBody : List StmtTree → Prop
  | [] => True
  | stmt :: body => stmt.Full ∧ FullBody body
  termination_by structural body => body

end

def TopTree.Full : TopTree → Prop
  | .function _ _ body => FullBody body
  | .globals .. | .extrn .. => True

def FullProgram (program : List TopTree) : Prop := ∀ top ∈ program, top.Full

def zeroTree : ExprTree := .atom .int isKindLiteral_int (some [byte '0']) 0

mutual

/-- `return 0;` stands in the second tree for any number of the statements `return;` of the
first. -/
inductive StmtTree.Fills : StmtTree → StmtTree → Prop where
  | same (stmt : StmtTree) : StmtTree.Fills stmt stmt
  | return_ : StmtTree.Fills (.return_ none) (.return_ (some zeroTree))
  | scope {body body' : List StmtTree} : FillsBody body body' → StmtTree.Fills (.scope body) (.scope body')
  | if_ {condition : ExprTree} {body body' : List StmtTree} {chain chain' : ChainTree} :
      FillsBody body body' → ChainTree.Fills chain chain' →
      StmtTree.Fills (.if_ condition body chain) (.if_ condition body' chain')
  | while_ {condition : ExprTree} {body body' : List StmtTree} :
      FillsBody body body' → StmtTree.Fills (.while_ condition body) (.while_ condition body')

inductive ChainTree.Fills : ChainTree → ChainTree → Prop where
  | done : ChainTree.Fills .done .done
  | elseIf {condition : ExprTree} {body body' : List StmtTree} {chain chain' : ChainTree} :
      FillsBody body body' → ChainTree.Fills chain chain' →
      ChainTree.Fills (.elseIf condition body chain) (.elseIf condition body' chain')
  | else_ {body body' : List StmtTree} : FillsBody body body' → ChainTree.Fills (.else_ body) (.else_ body')

inductive FillsBody : List StmtTree → List StmtTree → Prop where
  | nil : FillsBody [] []
  | cons {stmt stmt' : StmtTree} {body body' : List StmtTree} :
      StmtTree.Fills stmt stmt' → FillsBody body body' → FillsBody (stmt :: body) (stmt' :: body')

end

inductive TopTree.Fills : TopTree → TopTree → Prop where
  | same (top : TopTree) : TopTree.Fills top top
  | function {name : Name} {params : List Name} {body body' : List StmtTree} :
      FillsBody body body' → TopTree.Fills (.function name params body) (.function name params body')

def FillsProgram (program filled : List TopTree) : Prop :=
  List.Forall₂ TopTree.Fills program filled

mutual

/-- Nothing is filled in where every `return` has its expression. -/
theorem StmtTree.Fills.eq {stmt stmt' : StmtTree} (fills : stmt.Fills stmt') (full : stmt.Full) :
    stmt = stmt' := by
  match fills with
  | .same _ => rfl
  | .return_ => cases full
  | .scope body => rw [body.eq full]
  | .if_ body chain => rw [body.eq full.1, chain.eq full.2]
  | .while_ body => rw [body.eq full]

theorem ChainTree.Fills.eq {chain chain' : ChainTree} (fills : chain.Fills chain')
    (full : chain.Full) : chain = chain' := by
  match fills with
  | .done => rfl
  | .elseIf body chain => rw [body.eq full.1, chain.eq full.2]
  | .else_ body => rw [body.eq full]

theorem FillsBody.eq {body body' : List StmtTree} (fills : FillsBody body body')
    (full : FullBody body) : body = body' := by
  match fills with
  | .nil => rfl
  | .cons stmt body => rw [stmt.eq full.1, body.eq full.2]

end

theorem FillsProgram.eq {program filled : List TopTree} (fills : FillsProgram program filled)
    (full : FullProgram program) : program = filled := by
  induction fills with
  | nil => rfl
  | @cons top top' program filled first _ ih =>
      have others := ih fun other member => full other (List.mem_cons_of_mem _ member)
      have same : top = top' := by
        cases first with
        | same => rfl
        | function body => rw [body.eq (full _ List.mem_cons_self)]
      rw [same, others]

end Trident
