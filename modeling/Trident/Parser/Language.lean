import Trident.Parser.Grammar

/-! The grammar of the language, and how its expressions are scanned from left to right. -/

set_option autoImplicit false

namespace Trident

/-! The grammar. -/

/-- One item or more, with a comma between each and the next. -/
inductive CommaSeparated (item : List Token → Prop) : List Token → Prop where
  | one {tokens : List Token} : item tokens → CommaSeparated item tokens
  | cons (comma : Mark .comma) {first more : List Token} : item first → CommaSeparated item more →
      CommaSeparated item (first ++ comma.1 :: more)

/-- A name that is declared, with a size or not. -/
inductive IsVariable : List Token → Prop where
  | scalar (name : Mark .identifier) : IsVariable [name.1]
  | vector (name : Mark .identifier) (opened : Mark .oBracket) (size : Mark .int)
      (closed : Mark .cBracket) : IsVariable [name.1, opened.1, size.1, closed.1]

inductive IsIdentifier : List Token → Prop where
  | name (name : Mark .identifier) : IsIdentifier [name.1]

inductive IsExpr : List Token → Prop where
  | atom (token : TokenOf isKindLiteral) : IsExpr [token.1]
  | index (token : TokenOf isKindLiteral) (opened : Mark .oBracket) (closed : Mark .cBracket)
      {inner : List Token} : IsExpr inner → IsExpr (token.1 :: opened.1 :: (inner ++ [closed.1]))
  | emptyCall (name : Mark .identifier) (opened : Mark .oPren) (closed : Mark .cPren) :
      IsExpr [name.1, opened.1, closed.1]
  | call (name : Mark .identifier) (opened : Mark .oPren) (closed : Mark .cPren) {args : List Token} :
      CommaSeparated IsExpr args → IsExpr (name.1 :: opened.1 :: (args ++ [closed.1]))
  | unary (op : TokenOf isUnaryOp) {operand : List Token} : IsExpr operand → IsExpr (op.1 :: operand)
  | paren (opened : Mark .oPren) (closed : Mark .cPren) {inner : List Token} : IsExpr inner →
      IsExpr (opened.1 :: (inner ++ [closed.1]))
  | binary (op : TokenOf isBinaryOp) {left right : List Token} : IsExpr left → IsExpr right →
      IsExpr (left ++ op.1 :: right)

/-- The condition of an `if` or a `while`. -/
inductive IsCondition : List Token → Prop where
  | parens (opened : Mark .oPren) (closed : Mark .cPren) {value : List Token} : IsExpr value →
      IsCondition (opened.1 :: (value ++ [closed.1]))

inductive IsExtern : List Token → Prop where
  | extrn (word : Mark .extrn) (semicolon : Mark .semicolon) {names : List Token} :
      CommaSeparated IsIdentifier names → IsExtern (word.1 :: (names ++ [semicolon.1]))

mutual

inductive IsStatement : List Token → Prop where
  | scope {block : List Token} : IsBlock block → IsStatement block
  | auto (word : Mark .auto) (semicolon : Mark .semicolon) {declared : List Token} :
      CommaSeparated IsVariable declared → IsStatement (word.1 :: (declared ++ [semicolon.1]))
  | extrn {tokens : List Token} : IsExtern tokens → IsStatement tokens
  | goto (word : Mark .goto) (name : Mark .identifier) (semicolon : Mark .semicolon) :
      IsStatement [word.1, name.1, semicolon.1]
  | lable (name : Mark .identifier) (colon : Mark .colon) : IsStatement [name.1, colon.1]
  | bareReturn (word : Mark .return_) (semicolon : Mark .semicolon) : IsStatement [word.1, semicolon.1]
  | return_ (word : Mark .return_) (semicolon : Mark .semicolon) {value : List Token} : IsExpr value →
      IsStatement (word.1 :: (value ++ [semicolon.1]))
  | if_ {tokens : List Token} : IsIf tokens → IsStatement tokens
  | while_ (word : Mark .while_) {condition block : List Token} : IsCondition condition →
      IsBlock block → IsStatement (word.1 :: (condition ++ block))
  | expr (semicolon : Mark .semicolon) {value : List Token} : IsExpr value →
      IsStatement (value ++ [semicolon.1])

inductive IsBlock : List Token → Prop where
  | braces (opened : Mark .oBrace) (closed : Mark .cBrace) {body : List Token} : IsBody body →
      IsBlock (opened.1 :: (body ++ [closed.1]))

inductive IsBody : List Token → Prop where
  | nil : IsBody []
  | cons {first more : List Token} : IsStatement first → IsBody more → IsBody (first ++ more)

inductive IsIf : List Token → Prop where
  | if_ (word : Mark .if_) {condition block chain : List Token} : IsCondition condition →
      IsBlock block → IsChain chain → IsIf (word.1 :: (condition ++ (block ++ chain)))

/-- What follows the first branch of an `if`. -/
inductive IsChain : List Token → Prop where
  | done : IsChain []
  | elseIf (word : Mark .else_) {tokens : List Token} : IsIf tokens → IsChain (word.1 :: tokens)
  | else_ (word : Mark .else_) {block : List Token} : IsBlock block → IsChain (word.1 :: block)

end

inductive IsTop : List Token → Prop where
  | function (name : Mark .identifier) (opened : Mark .oPren) (closed : Mark .cPren)
      {params body : List Token} : params = [] ∨ CommaSeparated IsIdentifier params → IsStatement body →
      IsTop (name.1 :: opened.1 :: (params ++ closed.1 :: body))
  | globals (semicolon : Mark .semicolon) {declared : List Token} :
      CommaSeparated IsVariable declared → IsTop (declared ++ [semicolon.1])
  | extrn {tokens : List Token} : IsExtern tokens → IsTop tokens

inductive IsProgram : List Token → Prop where
  | nil : IsProgram []
  | cons {first more : List Token} : IsTop first → IsProgram more → IsProgram (first ++ more)

/-! Expressions, token by token: each token says what can follow it. -/

mutual

inductive ExprScan : List Token → List Token → List Use → Prop where
  | atom (token : Token) {tokens rest : List Token} {uses : List Use} : token.Plain →
      TailScan tokens rest uses → ExprScan (token :: tokens) rest (.operand token :: uses)
  | index (token : Token) (opened : Mark .oBracket) (closed : Mark .cBracket)
      {inner tokens rest : List Token} {uses uses' : List Use} : token.Plain →
      ExprScan inner (closed.1 :: tokens) uses → TailScan tokens rest uses' →
      ExprScan (token :: opened.1 :: inner) rest (.operand token :: (uses ++ uses'))
  | call (name : Mark .identifier) (opened : Mark .oPren) (closed : Mark .cPren)
      {args tokens rest : List Token} {uses uses' : List Use} {count : Nat} :
      ArgsScan args (closed.1 :: tokens) uses count → TailScan tokens rest uses' →
      ExprScan (name.1 :: opened.1 :: args) rest (.name name.1 :: (uses ++ uses'))
  | unary (op : TokenOf isUnaryOp) {tokens rest : List Token} {uses : List Use} :
      ExprScan tokens rest uses → ExprScan (op.1 :: tokens) rest uses
  | paren (opened : Mark .oPren) (closed : Mark .cPren) {inner tokens rest : List Token}
      {uses uses' : List Use} : ExprScan inner (closed.1 :: tokens) uses →
      TailScan tokens rest uses' → ExprScan (opened.1 :: inner) rest (uses ++ uses')

/-- Behind an operand. -/
inductive TailScan : List Token → List Token → List Use → Prop where
  | stop {rest : List Token} : StopsAt precNone rest.head? → TailScan rest rest []
  | binary (op : TokenOf isBinaryOp) {tokens rest : List Token} {uses : List Use} :
      ExprScan tokens rest uses → TailScan (op.1 :: tokens) rest uses

inductive ArgsScan : List Token → List Token → List Use → Nat → Prop where
  | nil {rest : List Token} : NextIs .cPren rest → ArgsScan rest rest [] 0
  | cons {tokens closing more rest : List Token} {comma : Option (Mark .comma)}
      {uses uses' : List Use} {count : Nat} : NextNot .cPren tokens → ExprScan tokens closing uses →
      CommaReads closing more comma → ArgsScan more rest uses' count →
      ArgsScan tokens rest (uses ++ .comma comma (count != 0) :: uses') (count + 1)

end

/-! The text that `parse_expr_f` took is scanned as it was taken. -/

theorem stopsAt_closer {kind : TokenKind} (closer : getOpPrec kind = precNone) (mark : Mark kind) :
    StopsAt precNone (some mark.1) := by
  intro next member
  cases member
  rw [EndsOperand, mark.2, closer]
  exact ⟨by decide, .inl rfl⟩

theorem TailScan.at_closer {kind : TokenKind} (closer : getOpPrec kind = precNone) (mark : Mark kind)
    (tokens : List Token) : TailScan (mark.1 :: tokens) (mark.1 :: tokens) [] :=
  .stop (stopsAt_closer closer mark)

private theorem stopsAt_append {prec : Precedence} {tokens rest : List Token}
    (here : StopsAt prec tokens.head?) (there : StopsAt prec rest.head?) :
    StopsAt prec (tokens ++ rest).head? := by
  cases tokens with
  | nil => exact there
  | cons token tokens => exact here

private theorem nextNot_append {kind : TokenKind} {tokens rest : List Token}
    (here : NextNot kind tokens) (there : NextNot kind rest) : NextNot kind (tokens ++ rest) := by
  cases tokens with
  | nil => exact there
  | cons token tokens => exact here

theorem NextIs.nextNot {kind other : TokenKind} {rest : List Token} (next : NextIs kind rest)
    (different : kind ≠ other) : NextNot other rest := by
  obtain ⟨token, member, rfl⟩ := next
  intro token' member'
  cases Option.mem_unique member member'
  exact different

theorem NextIs.stopsAt {kind : TokenKind} {rest : List Token} (next : NextIs kind rest)
    (closer : getOpPrec kind = precNone) : StopsAt precNone rest.head? := by
  obtain ⟨token, member, rfl⟩ := next
  rw [Option.mem_def.mp member]
  exact stopsAt_closer closer ⟨token, rfl⟩

theorem ExprText.tokens_ne_nil (text : ExprText) : text.tokens ≠ [] := by
  cases text <;> simp [ExprText.tokens]

mutual

/-- The text of an expression, and what stands behind it. -/
theorem ExprText.scan (text : ExprText) {tokens rest : List Token} {uses : List Use}
    (plain : text.Plain) (closed : text.Closed) (tail : TailScan tokens rest uses) :
    ExprScan (text.tokens ++ tokens) rest (text.uses ++ uses) := by
  match text with
  | .atom token => exact .atom token plain tail
  | .index token opened inner (some close) =>
      have inside := inner.scan plain.2 closed.1 (.at_closer rfl close tokens)
      rw [List.append_nil] at inside
      simpa [ExprText.tokens, ExprText.uses, optTokens] using
        ExprScan.index token opened close plain.1 inside tail
  | .call name opened args close =>
      have ends : NextIs .cPren (close.1 :: tokens) := ⟨close.1, rfl, close.2⟩
      have inside := args.scan plain closed ends
      simpa [ExprText.tokens, ExprText.uses] using ExprScan.call name opened close inside tail
  | .unary op operand => exact .unary op (operand.scan plain closed tail)
  | .paren opened inner (some close) =>
      have inside := inner.scan plain closed.1 (.at_closer rfl close tokens)
      rw [List.append_nil] at inside
      simpa [ExprText.tokens, ExprText.uses, optTokens] using ExprScan.paren opened close inside tail
  | .binary left op right =>
      have later := TailScan.binary op (right.scan plain.2 closed.2 tail)
      simpa [ExprText.tokens, ExprText.uses] using left.scan plain.1 closed.1 later
  termination_by structural text

theorem ArgsText.scan (args : ArgsText) {rest : List Token} (plain : args.Plain)
    (closed : args.Closed) (ends : NextIs .cPren rest) :
    ArgsScan (args.tokens ++ rest) rest args.uses args.trees.length := by
  match args with
  | .nil => exact .nil ends
  | .cons arg comma more =>
      obtain ⟨⟨plainArg, opens⟩, separated, plainMore⟩ := plain
      have others := more.scan plainMore closed.2 ends
      have begins : NextNot .cPren (arg.tokens ++ (optTokens comma ++ (more.tokens ++ rest))) := by
        rw [NextNot, List.head?_append_of_ne_nil _ arg.tokens_ne_nil]
        exact opens
      have follows : CommaReads (optTokens comma ++ (more.tokens ++ rest)) (more.tokens ++ rest) comma ∧
          StopsAt precNone (optTokens comma ++ (more.tokens ++ rest)).head? := by
        cases comma with
        | some comma => exact ⟨.some comma _, stopsAt_closer rfl comma⟩
        | none =>
            obtain ⟨stops, none_⟩ := separated rfl
            have noComma : NextNot .comma (more.tokens ++ rest) :=
              nextNot_append none_ (ends.nextNot (by decide))
            have stopped : StopsAt precNone (more.tokens ++ rest).head? :=
              stopsAt_append stops (ends.stopsAt rfl)
            exact ⟨.none noComma, stopped⟩
      have first := arg.scan plainArg closed.1 (.stop follows.2)
      rw [List.append_nil] at first
      simpa [ArgsText.tokens, ArgsText.uses, ArgsText.trees] using
        ArgsScan.cons begins first follows.1 others
  termination_by structural args

end

/-! What is scanned with everything in its place is an expression. -/

/-- Everything is taken where it belongs. -/
def AllProper (uses : List Use) : Prop := ∀ use ∈ uses, use.Proper

@[simp]
theorem allProper_nil : AllProper [] := by simp [AllProper]

@[simp]
theorem allProper_cons {use : Use} {uses : List Use} :
    AllProper (use :: uses) ↔ use.Proper ∧ AllProper uses := by simp [AllProper]

@[simp]
theorem allProper_append {uses uses' : List Use} :
    AllProper (uses ++ uses') ↔ AllProper uses ∧ AllProper uses' := by
  simp [AllProper, or_imp, forall_and]

mutual

theorem ExprScan.isExpr {tokens rest : List Token} {uses : List Use} (scan : ExprScan tokens rest uses)
    (proper : AllProper uses) : ∃ taken, tokens = taken ++ rest ∧ IsExpr taken := by
  match scan with
  | .atom token _ tail =>
      obtain ⟨literal, others⟩ := allProper_cons.mp proper
      obtain ⟨taken, rfl, extends_⟩ := tail.isExpr others
      exact ⟨_, rfl, extends_ [token] (.atom ⟨token, literal⟩)⟩
  | .index token opened closed _ inner tail =>
      obtain ⟨literal, others⟩ := allProper_cons.mp proper
      obtain ⟨inside, others⟩ := allProper_append.mp others
      obtain ⟨index, rfl, isIndex⟩ := inner.isExpr inside
      obtain ⟨taken, rfl, extends_⟩ := tail.isExpr others
      exact ⟨_, by simp, extends_ _ (.index ⟨token, literal⟩ opened closed isIndex)⟩
  | .call name opened closed args tail =>
      obtain ⟨-, others⟩ := allProper_cons.mp proper
      obtain ⟨inside, others⟩ := allProper_append.mp others
      obtain ⟨-, rfl⟩ | ⟨-, listed, rfl, areArgs⟩ := args.areArgs inside
      · obtain ⟨taken, rfl, extends_⟩ := tail.isExpr others
        exact ⟨_, by simp, extends_ _ (.emptyCall name opened closed)⟩
      · obtain ⟨taken, rfl, extends_⟩ := tail.isExpr others
        exact ⟨_, by simp, extends_ _ (.call name opened closed areArgs)⟩
  | .unary op operand =>
      obtain ⟨taken, rfl, isOperand⟩ := operand.isExpr proper
      exact ⟨_, rfl, .unary op isOperand⟩
  | .paren opened closed inner tail =>
      obtain ⟨inside, others⟩ := allProper_append.mp proper
      obtain ⟨value, rfl, isValue⟩ := inner.isExpr inside
      obtain ⟨taken, rfl, extends_⟩ := tail.isExpr others
      exact ⟨_, by simp, extends_ _ (.paren opened closed isValue)⟩

/-- What stands behind an operand makes a longer expression of it. -/
theorem TailScan.isExpr {tokens rest : List Token} {uses : List Use} (scan : TailScan tokens rest uses)
    (proper : AllProper uses) :
    ∃ taken, tokens = taken ++ rest ∧ ∀ operand, IsExpr operand → IsExpr (operand ++ taken) := by
  match scan with
  | .stop _ => exact ⟨[], rfl, fun operand isOperand => by simpa using isOperand⟩
  | .binary op right =>
      obtain ⟨taken, rfl, isRight⟩ := right.isExpr proper
      exact ⟨op.1 :: taken, rfl, fun operand isOperand => .binary op isOperand isRight⟩

theorem ArgsScan.areArgs {tokens rest : List Token} {uses : List Use} {count : Nat}
    (scan : ArgsScan tokens rest uses count) (proper : AllProper uses) :
    (count = 0 ∧ tokens = rest) ∨
      (count ≠ 0 ∧ ∃ taken, tokens = taken ++ rest ∧ CommaSeparated IsExpr taken) := by
  match scan with
  | .nil _ => exact .inl ⟨rfl, rfl⟩
  | .cons _ arg comma more =>
      obtain ⟨inside, others⟩ := allProper_append.mp proper
      obtain ⟨separated, others⟩ := allProper_cons.mp others
      obtain ⟨first, rfl, isFirst⟩ := arg.isExpr inside
      refine .inr ⟨Nat.succ_ne_zero _, ?_⟩
      have later := more.areArgs others
      obtain ⟨rfl, rfl⟩ | ⟨present, taken, rfl, areArgs⟩ := later
      · cases comma with
        | none _ => exact ⟨_, rfl, .one isFirst⟩
        | some comma => cases separated
      · cases comma with
        | none _ => cases (bne_iff_ne.mpr present).symm.trans separated.symm
        | some comma => exact ⟨_, by simp, .cons comma isFirst areArgs⟩

end

theorem ExprReads.scan {tokens rest : List Token} {uses : List Use} {node : AstNode}
    (reads : ExprReads tokens rest [] uses node) : ExprScan tokens rest uses := by
  obtain ⟨text, rfl, rfl, -, -, plain, stops, closed⟩ := reads
  have scan := text.scan plain (closed rfl) (.stop stops)
  rwa [List.append_nil] at scan

/-! The tokens determine how they are scanned. -/

theorem StopsAt.not_binary {token : Token} {next : Option Token} (stops : StopsAt precNone next)
    (at_ : next = some token) : ¬ isBinaryOp token.kind = true := by
  obtain ⟨-, none_ | below⟩ := stops token at_
  · simp [isBinaryOp, none_]
  · simpa [isBinaryOp] using below.le

theorem StopsAt.not_unary {token : Token} {next : Option Token} (stops : StopsAt precNone next)
    (at_ : next = some token) : ¬ isUnaryOp token.kind = true := by
  obtain ⟨ends, loose⟩ := stops token at_
  revert ends loose
  unfold EndsOperand
  cases token.kind <;> decide

theorem NextIs.not_nextNot {kind : TokenKind} {rest : List Token} (next : NextIs kind rest) :
    ¬ NextNot kind rest := by
  obtain ⟨token, member, same⟩ := next
  exact fun other => other token member same

theorem CommaReads.unique {tokens rest rest' : List Token} {comma comma' : Option (Mark .comma)}
    (reads : CommaReads tokens rest comma) (reads' : CommaReads tokens rest' comma') :
    rest = rest' ∧ comma = comma' := by
  cases reads with
  | none none_ =>
      cases reads' with
      | none => exact ⟨rfl, rfl⟩
      | some mark rest => exact absurd mark.2 (none_ mark.1 rfl)
  | some mark rest =>
      generalize tokens_eq : mark.1 :: rest = tokens at reads'
      cases reads' with
      | none none_ => exact absurd mark.2 (none_ mark.1 (by rw [← tokens_eq]; rfl))
      | some mark' rest' =>
          obtain ⟨same, rfl⟩ := List.cons.inj tokens_eq
          exact ⟨rfl, congrArg Option.some (Subtype.ext same)⟩

theorem TailScan.endsOperand {token : Token} {tokens rest : List Token} {uses : List Use}
    (scan : TailScan (token :: tokens) rest uses) : EndsOperand token.kind := by
  cases scan with
  | stop stops => exact (stops token rfl).1
  | binary op _ => exact endsOperand_of_binaryOp op.2

mutual

/-- A scan is determined by its tokens. -/
theorem ExprScan.unique {tokens tokens' rest rest' : List Token} {uses uses' : List Use}
    (scan : ExprScan tokens rest uses) (scan' : ExprScan tokens' rest' uses') (same : tokens = tokens') :
    rest = rest' ∧ uses = uses' := by
  match scan with
  | .atom token plain tail =>
      cases scan' with
      | atom token' plain' tail' =>
          obtain ⟨rfl, behind⟩ := List.cons.inj same
          obtain ⟨rfl, rfl⟩ := tail.unique tail' behind
          exact ⟨rfl, rfl⟩
      | index token' opened =>
          obtain ⟨rfl, rfl⟩ := List.cons.inj same
          exact absurd opened.2 tail.endsOperand.ne_oBracket
      | call name opened =>
          obtain ⟨rfl, rfl⟩ := List.cons.inj same
          exact absurd opened.2 tail.endsOperand.ne_oPren
      | unary op => grind [Token.Plain]
      | paren opened => grind [Token.Plain]
  | .index token opened closed plain inner tail =>
      cases scan' with
      | atom token' plain' tail' =>
          obtain ⟨rfl, rfl⟩ := List.cons.inj same
          exact absurd opened.2 tail'.endsOperand.ne_oBracket
      | index token' opened' closed' plain' inner' tail' =>
          obtain ⟨rfl, behind⟩ := List.cons.inj same
          obtain ⟨ends, rfl⟩ := inner.unique inner' (List.cons.inj behind).2
          obtain ⟨rfl, rfl⟩ := tail.unique tail' (List.cons.inj ends).2
          exact ⟨rfl, rfl⟩
      | call name opened' => grind
      | unary op => grind [Token.Plain]
      | paren opened' => grind [Token.Plain]
  | .call name opened closed args tail =>
      cases scan' with
      | atom token' plain' tail' =>
          obtain ⟨rfl, rfl⟩ := List.cons.inj same
          exact absurd opened.2 tail'.endsOperand.ne_oPren
      | index token' opened' => grind
      | call name' opened' closed' args' tail' =>
          obtain ⟨named, behind⟩ := List.cons.inj same
          obtain ⟨ends, rfl, -⟩ := args.unique args' (List.cons.inj behind).2
          obtain ⟨rfl, rfl⟩ := tail.unique tail' (List.cons.inj ends).2
          exact ⟨rfl, by rw [named]⟩
      | unary op => grind [isUnaryOp]
      | paren opened' => grind
  | .unary op operand =>
      cases scan' with
      | atom token' plain' => grind [Token.Plain]
      | index token' opened' closed' plain' => grind [Token.Plain]
      | call name' opened' => grind [isUnaryOp]
      | unary op' operand' => exact operand.unique operand' (List.cons.inj same).2
      | paren opened' => grind [isUnaryOp]
  | .paren opened closed inner tail =>
      cases scan' with
      | atom token' plain' => grind [Token.Plain]
      | index token' opened' closed' plain' => grind [Token.Plain]
      | call name' opened' => grind
      | unary op' operand' => grind [isUnaryOp]
      | paren opened' closed' inner' tail' =>
          obtain ⟨ends, rfl⟩ := inner.unique inner' (List.cons.inj same).2
          obtain ⟨rfl, rfl⟩ := tail.unique tail' (List.cons.inj ends).2
          exact ⟨rfl, rfl⟩

theorem TailScan.unique {tokens tokens' rest rest' : List Token} {uses uses' : List Use}
    (scan : TailScan tokens rest uses) (scan' : TailScan tokens' rest' uses') (same : tokens = tokens') :
    rest = rest' ∧ uses = uses' := by
  match scan with
  | .stop stops =>
      cases scan' with
      | stop => exact ⟨same, rfl⟩
      | binary op =>
          subst same
          exact absurd op.2 (stops.not_binary rfl)
  | .binary op right =>
      cases scan' with
      | stop stops =>
          subst same
          exact absurd op.2 (stops.not_binary rfl)
      | binary op' right' => exact right.unique right' (List.cons.inj same).2

theorem ArgsScan.unique {tokens tokens' rest rest' : List Token} {uses uses' : List Use}
    {count count' : Nat} (scan : ArgsScan tokens rest uses count)
    (scan' : ArgsScan tokens' rest' uses' count') (same : tokens = tokens') :
    rest = rest' ∧ uses = uses' ∧ count = count' := by
  match scan with
  | .nil ends =>
      cases scan' with
      | nil => exact ⟨same, rfl, rfl⟩
      | cons goesOn =>
          subst same
          exact absurd goesOn ends.not_nextNot
  | .cons goesOn arg comma more =>
      cases scan' with
      | nil ends =>
          subst same
          exact absurd goesOn ends.not_nextNot
      | cons goesOn' arg' comma' more' =>
          obtain ⟨rfl, rfl⟩ := arg.unique arg' same
          obtain ⟨behind, rfl⟩ := comma.unique comma'
          obtain ⟨rfl, rfl, rfl⟩ := more.unique more' behind
          exact ⟨rfl, rfl, rfl⟩

end

/-- A semicolon that stands for an operand of the operator behind it. -/
theorem ExprScan.of_semicolon {semicolon op : Token} {tokens rest : List Token} {uses : List Use}
    (scan : ExprScan (semicolon :: op :: tokens) rest uses) (semicolon_ : semicolon.kind = .semicolon)
    (unary : isUnaryOp op.kind = true) :
    ∃ uses', uses = .operand semicolon :: uses' ∧ ExprScan tokens rest uses' := by
  generalize tokens_eq : semicolon :: op :: tokens = tokens' at scan
  cases scan with
  | atom token plain tail =>
      obtain ⟨rfl, rfl⟩ := List.cons.inj tokens_eq
      generalize behind : op :: tokens = tokens' at tail
      cases tail with
      | stop stops =>
          subst behind
          exact absurd unary (stops.not_unary rfl)
      | binary op' right =>
          obtain ⟨-, rfl⟩ := List.cons.inj behind
          exact ⟨_, rfl, right⟩
  | index token opened => grind [isUnaryOp]
  | call name => grind
  | unary op' => grind [isUnaryOp]
  | paren opened => grind

/-! An expression is scanned with everything in its place. -/

/-- The kinds of the tokens that an expression begins with. -/
def startsExpr (kind : TokenKind) : Bool := isKindLiteral kind || isUnaryOp kind || kind == .oPren

theorem IsExpr.begins {taken : List Token} (expr : IsExpr taken) :
    ∃ token more, taken = token :: more ∧ startsExpr token.kind = true := by
  match expr with
  | .atom token => exact ⟨_, _, rfl, by simp [startsExpr, token.2]⟩
  | .index token opened closed _ => exact ⟨_, _, rfl, by simp [startsExpr, token.2]⟩
  | .emptyCall name opened closed => exact ⟨_, _, rfl, by simp [startsExpr, name.2, isKindLiteral]⟩
  | .call name opened closed _ => exact ⟨_, _, rfl, by simp [startsExpr, name.2, isKindLiteral]⟩
  | .unary op _ => exact ⟨_, _, rfl, by simp [startsExpr, op.2]⟩
  | .paren opened closed _ => exact ⟨_, _, rfl, by simp [startsExpr, opened.2]⟩
  | .binary op left _ =>
      obtain ⟨token, more, rfl, starts⟩ := left.begins
      exact ⟨token, _, rfl, starts⟩

theorem IsExpr.nextNot {taken tokens : List Token} (expr : IsExpr taken) {kind : TokenKind}
    (never : startsExpr kind = false) : NextNot kind (taken ++ tokens) := by
  obtain ⟨token, more, rfl, starts⟩ := expr.begins
  rintro _ ⟨rfl⟩ same
  rw [same, never] at starts
  cases starts

private theorem plain_of_literal {token : Token} (literal : isKindLiteral token.kind = true) :
    token.Plain := by
  unfold Token.Plain
  cases kind : token.kind <;> simp_all [isKindLiteral, isUnaryOp]

mutual

/-- An expression of the grammar is scanned to its end, with nothing out of place. -/
theorem IsExpr.scan {taken tokens rest : List Token} {uses : List Use} (expr : IsExpr taken)
    (tail : TailScan tokens rest uses) :
    ∃ uses', ExprScan (taken ++ tokens) rest (uses' ++ uses) ∧ AllProper uses' := by
  match expr with
  | .atom token =>
      exact ⟨[.operand token.1], .atom token.1 (plain_of_literal token.2) tail, by simp [Use.Proper, token.2]⟩
  | .index token opened closed inner =>
      obtain ⟨uses', inside, proper⟩ := inner.scan (.at_closer rfl closed tokens)
      rw [List.append_nil] at inside
      refine ⟨.operand token.1 :: uses', ?_, by simp [Use.Proper, token.2, proper]⟩
      simpa using ExprScan.index token.1 opened closed (plain_of_literal token.2) inside tail
  | .emptyCall name opened closed =>
      have none_ : ArgsScan (closed.1 :: tokens) (closed.1 :: tokens) [] 0 :=
        .nil ⟨closed.1, rfl, closed.2⟩
      exact ⟨[.name name.1], .call name opened closed none_ tail, by simp [Use.Proper, name.2]⟩
  | .call name opened closed args =>
      have ends : NextIs .cPren (closed.1 :: tokens) := ⟨closed.1, rfl, closed.2⟩
      obtain ⟨uses', count, -, inside, proper⟩ := args_scan args ends
      refine ⟨.name name.1 :: uses', ?_, by simp [Use.Proper, name.2, proper]⟩
      simpa using ExprScan.call name opened closed inside tail
  | .unary op operand =>
      obtain ⟨uses', inside, proper⟩ := operand.scan tail
      exact ⟨uses', .unary op inside, proper⟩
  | .paren opened closed inner =>
      obtain ⟨uses', inside, proper⟩ := inner.scan (.at_closer rfl closed tokens)
      rw [List.append_nil] at inside
      refine ⟨uses', ?_, proper⟩
      simpa using ExprScan.paren opened closed inside tail
  | .binary op left right =>
      obtain ⟨uses', later, proper⟩ := right.scan tail
      obtain ⟨uses'', whole, proper'⟩ := left.scan (.binary op later)
      refine ⟨uses'' ++ uses', ?_, by simp [proper, proper']⟩
      simpa using whole

private theorem args_scan {taken rest : List Token} (args : CommaSeparated IsExpr taken)
    (ends : NextIs .cPren rest) :
    ∃ uses count, count ≠ 0 ∧ ArgsScan (taken ++ rest) rest uses count ∧ AllProper uses := by
  match args with
  | .one arg =>
      obtain ⟨uses, inside, proper⟩ := arg.scan (.stop (ends.stopsAt rfl))
      rw [List.append_nil] at inside
      have whole := ArgsScan.cons (arg.nextNot rfl) inside (.none (ends.nextNot (by decide))) (.nil ends)
      exact ⟨_, _, Nat.succ_ne_zero _, whole, by simp [Use.Proper, proper]⟩
  | @CommaSeparated.cons _ comma _ more arg others =>
      obtain ⟨uses', count, present, later, proper'⟩ := args_scan others ends
      obtain ⟨uses, inside, proper⟩ := arg.scan (.at_closer rfl comma (more ++ rest))
      rw [List.append_nil] at inside
      have whole := ArgsScan.cons (arg.nextNot rfl) inside (.some comma _) later
      refine ⟨_, _, Nat.succ_ne_zero _, by simpa using whole, ?_⟩
      simp [Use.Proper, proper, proper', present]

end

/-- A silent reading in front of a text of the grammar ends where the text does. -/
theorem ExprReads.ends_at {tokens rest taken more : List Token} {diags : List Diag} {uses : List Use}
    {node : AstNode} (reads : ExprReads tokens rest diags uses node) (silent : diags = [])
    (expr : IsExpr taken) (same : tokens = taken ++ more) (stops : StopsAt precNone more.head?) :
    rest = more ∧ AllProper uses := by
  subst silent
  obtain ⟨uses', scan, proper⟩ := expr.scan (.stop stops)
  obtain ⟨rfl, rfl⟩ := reads.scan.unique scan same
  exact ⟨rfl, by simpa using proper⟩

end Trident
