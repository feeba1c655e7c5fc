import Trident.Parser.Consumed
import Trident.Parser.Statement

/-! What the parser reads from some tokens to the rest of them: the diagnostics that it
prints, the nodes that it makes, and what it takes without being asked to by its kind. -/

set_option autoImplicit false

namespace Trident

/-- What the parser takes as it comes: a token as a name, as an operand or as a size, and
the comma behind an item of a list, where `more` says that another item follows. -/
inductive Use where
  | name (token : Token)
  | operand (token : Token)
  | size (token : Token)
  | comma (given : Option (Mark .comma)) (more : Bool)

/-- The kind of token that belongs in the place. -/
def Use.Proper : Use → Prop
  | .name token => token.kind = .identifier
  | .operand token => isKindLiteral token.kind = true
  | .size token => token.kind = .int
  | .comma given more => given.isSome = more

/-- The next token is of the kind. -/
def NextIs (kind : TokenKind) (rest : List Token) : Prop := ∃ next ∈ rest.head?, next.kind = kind

/-- The token where one of the kind is expected. A token of another kind is reported and
left to what follows. -/
inductive Expected (kind : TokenKind) : List Token → List Token → List Diag → Token → Prop where
  | found (token : Mark kind) (rest : List Token) : Expected kind (token.1 :: rest) rest [] token.1
  | missing (token : Token) (rest : List Token) : token.kind ≠ kind →
      Expected kind (token :: rest) (token :: rest) [.expected token.position kind token.kind] token

/-- A comma that need not be there. -/
inductive CommaReads : List Token → List Token → Option (Mark .comma) → Prop where
  | none {rest : List Token} : NextNot .comma rest → CommaReads rest rest none
  | some (comma : Mark .comma) (rest : List Token) : CommaReads (comma.1 :: rest) rest (some comma)

/-! Expressions. -/

mutual

def ExprText.uses : ExprText → List Use
  | .atom token => [.operand token]
  | .index token _ inner _ => .operand token :: inner.uses
  | .call name _ args _ => .name name.1 :: args.uses
  | .unary _ operand => operand.uses
  | .paren _ inner _ => inner.uses
  | .binary left _ right => left.uses ++ right.uses
  termination_by structural text => text

def ArgsText.uses : ArgsText → List Use
  | .nil => []
  | .cons arg comma rest => arg.uses ++ .comma comma (rest.trees.length != 0) :: rest.uses
  termination_by structural args => args

end

/-- An expression goes as far as its operators do. Without diagnostics its parentheses and
brackets are closed. -/
def ExprReads (tokens rest : List Token) (diags : List Diag) (uses : List Use) (node : AstNode) :
    Prop :=
  ∃ text : ExprText, tokens = text.tokens ++ rest ∧ text.uses = uses ∧ text.tree = node ∧
    text.Grouped ∧ text.Plain ∧ StopsAt precNone rest.head? ∧ (diags = [] → text.Closed)

/-! Statements. -/

/-- The optional size of a local variable. -/
inductive AutoSizeReads : List Token → List Token → List Diag → Nat → Prop where
  | none {rest : List Token} : NextNot .oBracket rest → AutoSizeReads rest rest [] 1
  | size (opened : Mark .oBracket) {inner closing rest : List Token} {diags diags' : List Diag}
      {size closed : Token} : Expected .int inner closing diags size →
      Expected .cBracket closing rest diags' closed →
      AutoSizeReads (opened.1 :: inner) rest (diags ++ diags') size.intLit

/-- The variables of an `auto` statement. -/
inductive AutosRead : List Token → List Token → List Diag → List Use → List AstNode → Prop where
  | last {tokens size rest : List Token} {diags diags' : List Diag} {name : Token} {count : Nat} :
      Expected .identifier tokens size diags name → name.lexeme.isSome →
      AutoSizeReads size rest diags' count → NextNot .comma rest →
      AutosRead tokens rest (diags ++ diags') [.name name] [.auto name.lexeme count]
  | cons (comma : Mark .comma) {tokens size more rest : List Token}
      {diags diags' diags'' : List Diag} {name : Token} {count : Nat} {uses : List Use}
      {nodes : List AstNode} : Expected .identifier tokens size diags name → name.lexeme.isSome →
      AutoSizeReads size (comma.1 :: more) diags' count → AutosRead more rest diags'' uses nodes →
      AutosRead tokens rest (diags ++ (diags' ++ diags'')) (.name name :: uses)
        (.auto name.lexeme count :: nodes)

/-- The names of an `extrn` statement: any tokens, with a comma behind each or not. -/
inductive ExternsRead : List Token → List Token → List Use → List AstNode → Prop where
  | last (name : Token) {tokens rest : List Token} {comma : Option (Mark .comma)} :
      CommaReads tokens rest comma → NextIs .semicolon rest →
      ExternsRead (name :: tokens) rest [.name name, .comma comma false] [.extrn name.lexeme]
  | cons (name : Token) {tokens more rest : List Token} {comma : Option (Mark .comma)}
      {uses : List Use} {nodes : List AstNode} : CommaReads tokens more comma →
      NextNot .semicolon more → ExternsRead more rest uses nodes →
      ExternsRead (name :: tokens) rest (.name name :: .comma comma true :: uses)
        (.extrn name.lexeme :: nodes)

inductive ExternReads : List Token → List Token → List Use → List AstNode → Prop where
  | extrn (word : Mark .extrn) (semicolon : Mark .semicolon) {names rest : List Token}
      {uses : List Use} {nodes : List AstNode} : ExternsRead names (semicolon.1 :: rest) uses nodes →
      ExternReads (word.1 :: names) rest uses nodes

/-- The statements that become any number of nodes of the block. A comma is one that
becomes none. -/
inductive DeclarationReads : List Token → List Token → List Diag → List Use → List AstNode → Prop where
  | auto (word : Mark .auto) {autos closing rest : List Token} {diags diags' : List Diag}
      {uses : List Use} {semicolon : Token} {nodes : List AstNode} :
      AutosRead autos closing diags uses nodes → Expected .semicolon closing rest diags' semicolon →
      DeclarationReads (word.1 :: autos) rest (diags ++ diags') uses nodes
  | extrn {tokens rest : List Token} {uses : List Use} {nodes : List AstNode} :
      ExternReads tokens rest uses nodes → DeclarationReads tokens rest [] uses nodes
  | comma (comma : Mark .comma) (rest : List Token) :
      DeclarationReads (comma.1 :: rest) rest [] [.comma (some comma) false] []

/-- The kinds of the tokens at which `parse_statements_f` sees no expression. -/
def startsOther : TokenKind → Bool
  | .auto | .extrn | .goto | .oBrace | .return_ | .if_ | .while_ | .comma => true
  | _ => false

/-- `parse_statements_f` sees an expression: no other statement, and no label. -/
inductive ExprAhead : List Token → Prop where
  | ahead {token : Token} {rest : List Token} : startsOther token.kind = false →
      (token.kind = .identifier → NextNot .colon rest) → ExprAhead (token :: rest)

/-- The semicolon of `return;` stands where the parser takes it for an operand of the operator
behind it. -/
def bareReturn : List Token → Bool
  | word :: semicolon :: op :: _ =>
      word.kind == .return_ && semicolon.kind == .semicolon && isUnaryOp op.kind
  | _ => false

/-- In braces that semicolon may as well end a statement of its own, and is not out of place. -/
def bodyUses (tokens : List Token) : List Use → List Use
  | .operand token :: uses => if bareReturn tokens then uses else .operand token :: uses
  | uses => uses

theorem name_mem_bodyUses {tokens : List Token} {uses : List Use} {token : Token} :
    .name token ∈ bodyUses tokens uses ↔ .name token ∈ uses := by
  unfold bodyUses
  split
  next =>
    split
    · simp
    · rfl
  next => rfl

mutual

/-- The statements that are one node. The tables of a block are not part of its text. -/
inductive StatementReads : List Token → List Token → List Diag → List Use → AstNode → Prop where
  | goto (word : Mark .goto) (name : Token) {closing rest : List Token} {diags : List Diag}
      {semicolon : Token} : Expected .semicolon closing rest diags semicolon →
      StatementReads (word.1 :: name :: closing) rest diags [.name name] (.goto name.lexeme)
  | lable (name : Mark .identifier) (colon : Mark .colon) (rest : List Token) :
      name.1.lexeme.isSome →
      StatementReads (name.1 :: colon.1 :: rest) rest [] [.name name.1] (.lable name.1.lexeme)
  | return_ (word : Mark .return_) {value closing rest : List Token} {diags diags' : List Diag}
      {uses : List Use} {semicolon : Token} {node : AstNode} :
      ExprReads value closing diags uses node → Expected .semicolon closing rest diags' semicolon →
      StatementReads (word.1 :: value) rest (diags ++ diags') uses (.return_ (some node))
  | expr {value closing rest : List Token} {diags diags' : List Diag} {uses : List Use}
      {semicolon : Token} {node : AstNode} : ExprAhead value →
      ExprReads value closing diags uses node → Expected .semicolon closing rest diags' semicolon →
      StatementReads value rest (diags ++ diags') uses (.expr node)
  | scope (scopeN : AstScope) {tokens rest : List Token} {diags : List Diag} {uses : List Use}
      {body : List AstNode} : NextIs .oBrace tokens → BlockReads tokens rest diags uses body →
      StatementReads tokens rest diags uses (.scope scopeN body)
  | if_ {tokens rest : List Token} {diags : List Diag} {uses : List Use} {condition body : AstNode}
      {chain : Option AstNode} : IfReads tokens rest diags uses condition body chain →
      StatementReads tokens rest diags uses (.if_ condition body chain)
  | while_ (word : Mark .while_) (scopeN : AstScope) {opening test closing block rest : List Token}
      {diags diags' diags'' inside : List Diag} {uses uses' : List Use} {opened closed : Token}
      {condition : AstNode} {body : List AstNode} : Expected .oPren opening test diags opened →
      ExprReads test closing diags' uses condition → Expected .cPren closing block diags'' closed →
      BlockReads block rest inside uses' body →
      StatementReads (word.1 :: opening) rest (diags ++ (diags' ++ (diags'' ++ inside)))
        (uses ++ uses') (.while_ condition (.scope scopeN body))

inductive BlockReads : List Token → List Token → List Diag → List Use → List AstNode → Prop where
  | braces {opening tokens closing rest : List Token} {diags diags' diags'' : List Diag}
      {uses : List Use} {opened closed : Token} {body : List AstNode} :
      Expected .oBrace opening tokens diags opened → BodyReads tokens closing diags' uses body →
      Expected .cBrace closing rest diags'' closed →
      BlockReads opening rest (diags ++ (diags' ++ diags'')) uses body

inductive BodyReads : List Token → List Token → List Diag → List Use → List AstNode → Prop where
  | nil {rest : List Token} : (∀ next ∈ rest.head?, next.kind = .cBrace) → BodyReads rest rest [] [] []
  | statement {tokens more rest : List Token} {diags diags' : List Diag} {uses uses' : List Use}
      {node : AstNode} {nodes : List AstNode} : NextNot .cBrace tokens →
      StatementReads tokens more diags uses node → BodyReads more rest diags' uses' nodes →
      BodyReads tokens rest (diags ++ diags') (bodyUses tokens uses ++ uses') (node :: nodes)
  | declaration {tokens more rest : List Token} {diags diags' : List Diag} {uses uses' : List Use}
      {nodes nodes' : List AstNode} : DeclarationReads tokens more diags uses nodes →
      BodyReads more rest diags' uses' nodes' →
      BodyReads tokens rest (diags ++ diags') (uses ++ uses') (nodes ++ nodes')

inductive IfReads :
    List Token → List Token → List Diag → List Use → AstNode → AstNode → Option AstNode → Prop where
  | if_ (word : Mark .if_) (scopeN : AstScope) {opening test closing block chained rest : List Token}
      {diags diags' diags'' inside more : List Diag} {uses uses' uses'' : List Use}
      {opened closed : Token} {condition : AstNode} {body : List AstNode} {chain : Option AstNode} :
      Expected .oPren opening test diags opened → ExprReads test closing diags' uses condition →
      Expected .cPren closing block diags'' closed → BlockReads block chained inside uses' body →
      ChainReads chained rest more uses'' chain →
      IfReads (word.1 :: opening) rest (diags ++ (diags' ++ (diags'' ++ (inside ++ more))))
        (uses ++ (uses' ++ uses'')) condition (.scope scopeN body) chain

inductive ChainReads : List Token → List Token → List Diag → List Use → Option AstNode → Prop where
  | done {rest : List Token} : NextNot .else_ rest → ChainReads rest rest [] [] none
  | elseIf (word : Mark .else_) {tokens rest : List Token} {diags : List Diag} {uses : List Use}
      {condition body : AstNode} {chain : Option AstNode} :
      IfReads tokens rest diags uses condition body chain →
      ChainReads (word.1 :: tokens) rest diags uses (some (.elseIf condition body chain))
  | else_ (word : Mark .else_) (scopeN : AstScope) {tokens rest : List Token} {diags : List Diag}
      {uses : List Use} {body : List AstNode} : NextNot .if_ tokens →
      BlockReads tokens rest diags uses body →
      ChainReads (word.1 :: tokens) rest diags uses (some (.else_ scopeN body))

end

/-! Programs. -/

/-- The parameters of a function: any tokens but a closing parenthesis, with a comma
behind each or not. -/
inductive ParamsRead : List Token → List Token → List Use → Nat → Prop where
  | nil {rest : List Token} : NextIs .cPren rest → ParamsRead rest rest [] 0
  | cons (name : Token) {tokens more rest : List Token} {comma : Option (Mark .comma)}
      {uses : List Use} {count : Nat} : name.kind ≠ .cPren → name.lexeme.isSome →
      CommaReads tokens more comma → ParamsRead more rest uses count →
      ParamsRead (name :: tokens) rest (.name name :: .comma comma (count != 0) :: uses) (count + 1)

/-- The optional size of a global variable, which may be any token. -/
inductive GlobalSizeReads : List Token → List Token → List Diag → List Use → Nat → Prop where
  | none {rest : List Token} : NextNot .oBracket rest → GlobalSizeReads rest rest [] [] 1
  | size (opened : Mark .oBracket) (size : Token) {closing rest : List Token} {diags : List Diag}
      {closed : Token} : Expected .cBracket closing rest diags closed →
      GlobalSizeReads (opened.1 :: size :: closing) rest diags [.size size] size.intLit

/-- The global variables of one declaration, from the size of the first on. Behind a
comma any token is a name. -/
inductive GlobalsRead :
    Token → List Token → List Token → List Diag → List Use → List AstNode → Prop where
  | last {name : Token} {tokens rest : List Token} {diags : List Diag} {uses : List Use}
      {count : Nat} : name.lexeme.isSome → GlobalSizeReads tokens rest diags uses count →
      NextNot .comma rest → GlobalsRead name tokens rest diags (.name name :: uses) [.global name.lexeme count]
  | cons {name : Token} (comma : Mark .comma) (next : Token) {tokens more rest : List Token}
      {diags diags' : List Diag} {uses uses' : List Use} {count : Nat} {nodes : List AstNode} :
      name.lexeme.isSome → GlobalSizeReads tokens (comma.1 :: next :: more) diags uses count →
      GlobalsRead next more rest diags' uses' nodes →
      GlobalsRead name tokens rest (diags ++ diags') (.name name :: (uses ++ uses'))
        (.global name.lexeme count :: nodes)

/-- What stands outside of functions. A token that begins nothing is reported and skipped. -/
inductive TopReads : List Token → List Token → List Diag → List Use → List AstNode → Prop where
  | function (name : Mark .identifier) (opened : Mark .oPren) (closed : Mark .cPren)
      (paramsTab lableTab : Nat) {params body rest : List Token} {diags : List Diag}
      {uses uses' : List Use} {count : Nat} {node : AstNode} :
      ParamsRead params (closed.1 :: body) uses count → StatementReads body rest diags uses' node →
      TopReads (name.1 :: opened.1 :: params) rest diags (.name name.1 :: (uses ++ uses'))
        [.function name.1.lexeme paramsTab lableTab count node]
  | globals (name : Mark .identifier) {more closing rest : List Token} {diags diags' : List Diag}
      {uses : List Use} {semicolon : Token} {nodes : List AstNode} : NextNot .oPren more →
      GlobalsRead name.1 more closing diags uses nodes →
      Expected .semicolon closing rest diags' semicolon →
      TopReads (name.1 :: more) rest (diags ++ diags') uses nodes
  | extrn {tokens rest : List Token} {uses : List Use} {nodes : List AstNode} :
      ExternReads tokens rest uses nodes → TopReads tokens rest [] uses nodes
  | unexpected (token : Token) (rest : List Token) : token.kind ≠ .identifier → token.kind ≠ .extrn →
      TopReads (token :: rest) rest [.unexpectedToken token.position token.kind] [] []

inductive ProgramReads : List Token → List Diag → List Use → List AstNode → Prop where
  | nil : ProgramReads [] [] [] []
  | cons {tokens rest : List Token} {diags diags' : List Diag} {uses uses' : List Use}
      {nodes nodes' : List AstNode} : TopReads tokens rest diags uses nodes →
      ProgramReads rest diags' uses' nodes' →
      ProgramReads tokens (diags ++ diags') (uses ++ uses') (nodes ++ nodes')

end Trident
