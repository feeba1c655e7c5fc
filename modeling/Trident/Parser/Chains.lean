import Trident.Foundation.Precedence
import Trident.Foundation.StateResult
import Trident.Lexer
import Trident.Parser.Expr
import Mathlib.Data.Int.Order.Basic

/-! The language of the expression parser: operands, chains of operands joined by
binary operators, and what the parser makes of them. -/

set_option autoImplicit false

namespace Trident

open Foundation

/-! The grammar: operands, chains, and the tree that `parse_expr_f` makes of a chain. -/

/-- `is_kind_literal`. -/
def isKindLiteral : TokenKind → Bool
  | .int | .string | .identifier => true
  | _ => false

theorem isKindLiteral_int : isKindLiteral .int = true := rfl

theorem isKindLiteral_identifier : isKindLiteral .identifier = true := rfl

def isBinaryOp (kind : TokenKind) : Bool := decide (precNone < getOpPrec kind)

theorem isBinaryOp_assign : isBinaryOp .assign = true := rfl

/-- A token whose kind passes a test. -/
abbrev TokenOf (kinds : TokenKind → Bool) := { token : Token // kinds token.kind = true }

abbrev Mark (kind : TokenKind) := { token : Token // token.kind = kind }

theorem Mark.unaryOp {kind : TokenKind} (unary : isUnaryOp kind = true) (mark : Mark kind) :
    isUnaryOp mark.1.kind = true := by
  rw [mark.2]
  exact unary

theorem Mark.binaryOp {kind : TokenKind} (binary : isBinaryOp kind = true) (mark : Mark kind) :
    isBinaryOp mark.1.kind = true := by
  rw [mark.2]
  exact binary

mutual

/-- What stands between binary operators. -/
inductive Primary where
  | atom (token : TokenOf isKindLiteral)
  | index (token : TokenOf isKindLiteral) (opened : Mark .oBracket) (inner : Chain)
      (closed : Mark .cBracket)
  | call (name : Mark .identifier) (opened : Mark .oPren) (args : Args) (closed : Mark .cPren)
  | unary (op : TokenOf isUnaryOp) (operand : Primary)
  | paren (opened : Mark .oPren) (inner : Chain) (closed : Mark .cPren)

/-- Operands joined by binary operators. -/
inductive Chain where
  | mk (first : Primary) (rest : Rest)

inductive Rest where
  | nil
  | cons (op : TokenOf isBinaryOp) (operand : Primary) (rest : Rest)

inductive Args where
  | nil
  | cons (arg : Chain) (more : MoreArgs)

inductive MoreArgs where
  | nil
  | cons (comma : Mark .comma) (arg : Chain) (more : MoreArgs)

end

mutual

def Primary.tokens : Primary → List Token
  | .atom token => [token.1]
  | .index token opened inner closed => token.1 :: opened.1 :: (inner.tokens ++ [closed.1])
  | .call name opened args closed => name.1 :: opened.1 :: (args.tokens ++ [closed.1])
  | .unary op operand => op.1 :: operand.tokens
  | .paren opened inner closed => opened.1 :: (inner.tokens ++ [closed.1])
  termination_by structural operand => operand

def Chain.tokens : Chain → List Token
  | .mk first rest => first.tokens ++ rest.tokens
  termination_by structural chain => chain

def Rest.tokens : Rest → List Token
  | .nil => []
  | .cons op operand rest => op.1 :: (operand.tokens ++ rest.tokens)
  termination_by structural rest => rest

def Args.tokens : Args → List Token
  | .nil => []
  | .cons arg more => arg.tokens ++ more.tokens
  termination_by structural args => args

def MoreArgs.tokens : MoreArgs → List Token
  | .nil => []
  | .cons comma arg more => comma.1 :: (arg.tokens ++ more.tokens)
  termination_by structural args => args

end

/-- The least precedence of an operator that goes into the right operand of another. -/
def rightPrec (op : TokenKind) : Precedence :=
  if isProcLeftAssociative (getOpPrec op) then getOpPrec op + 1 else getOpPrec op

def absorbs (op next : TokenKind) : Bool := decide (rightPrec op ≤ getOpPrec next)

/-- The tree that `parse_expr_f` makes of the trees of operands. -/
def climb (first : AstNode) (rest : List (TokenKind × AstNode)) : AstNode :=
  (group absorbs first rest).fold .binary

def Token.atomNode (token : Token) : AstNode := .atom token.kind token.lexeme token.intLit

mutual

def Primary.tree : Primary → AstNode
  | .atom token => token.1.atomNode
  | .index token _ inner _ => indexNode token.1.atomNode inner.tree
  | .call name _ args _ => .functionCall name.1.lexeme args.trees
  | .unary op operand => .unary op.1.kind operand.tree
  | .paren _ inner _ => inner.tree
  termination_by structural operand => operand

def Chain.tree : Chain → AstNode
  | .mk first rest => climb first.tree rest.trees
  termination_by structural chain => chain

def Rest.trees : Rest → List (TokenKind × AstNode)
  | .nil => []
  | .cons op operand rest => (op.1.kind, operand.tree) :: rest.trees
  termination_by structural rest => rest

def Args.trees : Args → List AstNode
  | .nil => []
  | .cons arg more => arg.tree :: more.trees
  termination_by structural args => args

def MoreArgs.trees : MoreArgs → List AstNode
  | .nil => []
  | .cons _ arg more => arg.tree :: more.trees
  termination_by structural args => args

end

/-! The parser at the tokens of a chain. -/

/-- The context with these tokens still to be read. -/
def Parser.reading (p : Parser) (tokens : List Token) : Parser := { p with tok := tokens }

section Tokens

variable (p : Parser) (token : Token) (tokens : List Token)

theorem curr_run : curr (p.reading (token :: tokens)) = .ok (some token) (p.reading (token :: tokens)) :=
  rfl

theorem ppeak_run : ppeak (p.reading (token :: tokens)) = .ok tokens.head? (p.reading (token :: tokens)) :=
  rfl

theorem tokField_run : tokField (p.reading (token :: tokens)) = .ok token (p.reading (token :: tokens)) :=
  rfl

private theorem pconsume_run : pconsume (p.reading (token :: tokens)) = .ok (some token) (p.reading tokens) := rfl

theorem skip_run : (discard pconsume) (p.reading (token :: tokens)) = .ok () (p.reading tokens) := rfl

theorem isKind_run (kind : TokenKind) :
    isKind kind (p.reading (token :: tokens)) =
      .ok (token.kind == kind) (p.reading (token :: tokens)) := rfl

private theorem parseAtomF_run : parseAtomF (p.reading (token :: tokens)) =
    .ok token.atomNode (p.reading tokens) := rfl

theorem expectAndConsume_run {kind : TokenKind} (expected : token.kind = kind) :
    expectAndConsume kind (p.reading (token :: tokens)) = .ok () (p.reading tokens) := by
  rw [expectAndConsume, bind_run_of_ok (tokField_run ..), if_neg (not_not.mpr expected.symm)]
  rfl

end Tokens

/-- The tokens after an operand: an operator or a closer. -/
def EndsOperand (kind : TokenKind) : Prop := getOpPrec kind ≠ precUnknown

theorem endsOperand_of_binaryOp {kind : TokenKind} (binary : isBinaryOp kind = true) : EndsOperand kind := by
  intro unknown
  rw [isBinaryOp, unknown] at binary
  exact absurd binary (by decide)

private theorem endsOperand_of_closer {kind : TokenKind} (closer : getOpPrec kind = precNone) :
    EndsOperand kind := by
  intro unknown
  rw [unknown] at closer
  exact absurd closer (by decide)

theorem EndsOperand.ne_oPren {kind : TokenKind} (ends : EndsOperand kind) : kind ≠ .oPren := by
  rintro rfl
  exact ends rfl

theorem EndsOperand.ne_oBracket {kind : TokenKind} (ends : EndsOperand kind) : kind ≠ .oBracket := by
  rintro rfl
  exact ends rfl

/-- `parse_left_f` reads the operand, with fuel in proportion to its tokens. -/
def Primary.Parses (operand : Primary) : Prop :=
  ∀ (fuel : Nat) (p : Parser) (next : Token) (rest : List Token),
    3 * operand.tokens.length ≤ fuel → EndsOperand next.kind →
    parseLeftF fuel (p.reading (operand.tokens ++ next :: rest)) =
      .ok operand.tree (p.reading (next :: rest))

/-- `parse_expr_f` reads the chain, up to a closer. -/
def Chain.Parses (chain : Chain) : Prop :=
  ∀ (fuel : Nat) (p : Parser) (closer : Token) (rest : List Token),
    3 * chain.tokens.length + 1 ≤ fuel → getOpPrec closer.kind = precNone →
    parseExprF fuel precNone (p.reading (chain.tokens ++ closer :: rest)) =
      .ok chain.tree (p.reading (closer :: rest))

/-- The loop of `parse_function_call_s` reads the arguments. -/
def Args.Parses (args : Args) : Prop :=
  ∀ (fuel : Nat) (p : Parser) (closer : Token) (rest : List Token),
    3 * args.tokens.length + 2 ≤ fuel → closer.kind = .cPren →
    parseCallArgs fuel (p.reading (args.tokens ++ closer :: rest)) =
      .ok args.trees (p.reading (closer :: rest))

/-- The operators of a chain with their operands. -/
abbrev Link := TokenOf isBinaryOp × Primary

def Rest.links : Rest → List Link
  | .nil => []
  | .cons op operand rest => (op, operand) :: rest.links

def linkTokens (links : List Link) : List Token :=
  links.flatMap fun link => link.1.1 :: link.2.tokens

def linkTrees (links : List Link) : List (TokenKind × AstNode) :=
  links.map fun link => (link.1.1.kind, link.2.tree)

theorem Rest.tokens_eq (rest : Rest) : rest.tokens = linkTokens rest.links := by
  match rest with
  | .nil => rfl
  | .cons op operand rest =>
      rw [Rest.tokens, rest.tokens_eq]
      rfl

theorem Rest.trees_eq (rest : Rest) : rest.trees = linkTrees rest.links := by
  match rest with
  | .nil => rfl
  | .cons op operand rest =>
      rw [Rest.trees, rest.trees_eq]
      rfl

/-! The loop over the operators takes the links that bind tightly enough. -/

section Loop

/-- The operators from a precedence on. -/
def Link.atLeast (prec : Precedence) (link : Link) : Bool :=
  decide (prec ≤ getOpPrec link.1.1.kind)

variable {links : List Link}

private theorem takeWhile_atLeast {low high : Precedence} (le : low ≤ high) (links : List Link) :
    ((links.takeWhile (Link.atLeast low)).takeWhile (Link.atLeast high) =
        links.takeWhile (Link.atLeast high)) ∧
      ((links.takeWhile (Link.atLeast low)).dropWhile (Link.atLeast high) =
        (links.dropWhile (Link.atLeast high)).takeWhile (Link.atLeast low)) ∧
      (links.dropWhile (Link.atLeast high)).dropWhile (Link.atLeast low) =
        links.dropWhile (Link.atLeast low) := by
  induction links with
  | nil => exact ⟨rfl, rfl, rfl⟩
  | cons link rest ih =>
      by_cases taken : Link.atLeast high link = true
      · have kept : Link.atLeast low link = true :=
          decide_eq_true (le.trans (by exact of_decide_eq_true taken))
        simpa only [List.takeWhile_cons, List.dropWhile_cons, taken, kept, if_true,
          List.cons.injEq, true_and] using ih
      · by_cases kept : Link.atLeast low link = true
        · simp [taken, kept]
        · simp [taken, kept]

private theorem linkTrees_takeWhile (op : TokenKind) (links : List Link) :
    linkTrees (links.takeWhile (Link.atLeast (rightPrec op))) =
      (linkTrees links).takeWhile fun next => absorbs op next.1 := by
  rw [linkTrees, linkTrees, List.takeWhile_map]
  rfl

private theorem linkTrees_dropWhile (op : TokenKind) (links : List Link) :
    linkTrees (links.dropWhile (Link.atLeast (rightPrec op))) =
      (linkTrees links).dropWhile fun next => absorbs op next.1 := by
  rw [linkTrees, linkTrees, List.dropWhile_map]
  rfl

theorem climb_cons (left right : AstNode) (op : TokenKind) (rest : List (TokenKind × AstNode)) :
    climb left ((op, right) :: rest) =
      climb (.binary left op (climb right (rest.takeWhile fun next => absorbs op next.1)))
        (rest.dropWhile fun next => absorbs op next.1) := fold_group_cons ..

private theorem length_linkTokens_dropWhile (test : Link → Bool) (links : List Link) :
    (linkTokens (links.dropWhile test)).length ≤ (linkTokens links).length := by
  have whole : linkTokens links =
      linkTokens (links.takeWhile test) ++ linkTokens (links.dropWhile test) := by
    rw [linkTokens, linkTokens, linkTokens, ← List.flatMap_append, List.takeWhile_append_dropWhile]
  rw [whole, List.length_append]
  exact Nat.le_add_left _ _

theorem getOpPrec_le_rightPrec (op : TokenKind) : getOpPrec op ≤ rightPrec op := by
  unfold rightPrec
  split
  · exact Int.le_add_one (Int.le_refl _)
  · exact Int.le_refl _

variable {fuel : Nat} {p : Parser} {prec : Precedence} {token : Token} {rest : List Token}

private theorem parseExprLoop_stop (left : AstNode) (ends : EndsOperand token.kind)
    (loose : getOpPrec token.kind = precNone ∨ getOpPrec token.kind < prec) :
    parseExprLoop (fuel + 1) prec left (p.reading (token :: rest)) =
      .ok left (p.reading (token :: rest)) := by
  rw [parseExprLoop, bind_run_of_ok (curr_run ..)]
  dsimp only
  rw [if_neg ends, if_pos loose]
  rfl

private theorem parseExprLoop_op (left : AstNode) (binary : isBinaryOp token.kind = true)
    (tight : prec ≤ getOpPrec token.kind) :
    parseExprLoop (fuel + 1) prec left (p.reading (token :: rest)) =
      (parseExprF fuel (rightPrec token.kind) >>= fun right =>
        parseExprLoop fuel prec (.binary left token.kind right)) (p.reading rest) := by
  have positive : precNone < getOpPrec token.kind := of_decide_eq_true binary
  have tighter : ¬ (getOpPrec token.kind = precNone ∨ getOpPrec token.kind < prec) :=
    fun loose => loose.elim positive.ne' tight.not_gt
  rw [parseExprLoop, bind_run_of_ok (curr_run ..)]
  dsimp only
  rw [if_neg (endsOperand_of_binaryOp binary), if_neg tighter, bind_run_of_ok (skip_run ..)]
  rfl

/-- The token behind some operators of a chain. -/
private theorem exists_next (links : List Link) (rest : List Token)
    (closes : getOpPrec token.kind = precNone) :
    ∃ next more, linkTokens links ++ token :: rest = next :: more ∧ EndsOperand next.kind := by
  cases links with
  | nil => exact ⟨token, rest, rfl, endsOperand_of_closer closes⟩
  | cons link links => exact ⟨link.1.1, _, rfl, endsOperand_of_binaryOp link.1.2⟩

/-- The loop of `parse_expr_f` takes the operators up to the first that is too loose. -/
private theorem parseExprLoop_links {links : List Link} (parses : ∀ link ∈ links, link.2.Parses)
    (left : AstNode) (enough : 3 * (linkTokens links).length + 1 ≤ fuel)
    (closes : getOpPrec token.kind = precNone) :
    parseExprLoop fuel prec left (p.reading (linkTokens links ++ token :: rest)) =
      .ok (climb left (linkTrees (links.takeWhile (Link.atLeast prec))))
        (p.reading (linkTokens (links.dropWhile (Link.atLeast prec)) ++ token :: rest)) := by
  induction size : links.length using Nat.strong_induction_on
    generalizing links fuel prec left with
  | _ count ih =>
      obtain ⟨fuel, rfl⟩ : ∃ less, fuel = less + 1 := ⟨fuel - 1, by omega⟩
      cases links with
      | nil => exact parseExprLoop_stop left (endsOperand_of_closer closes) (.inl closes)
      | cons link links =>
          obtain ⟨⟨op, binary⟩, operand⟩ := link
          by_cases tight : prec ≤ getOpPrec op.kind
          · have parse : operand.Parses := parses _ List.mem_cons_self
            have others : ∀ link ∈ links, link.2.Parses := fun link member =>
              parses link (List.mem_cons_of_mem _ member)
            have lengths : (linkTokens ((⟨op, binary⟩, operand) :: links)).length =
                operand.tokens.length + (linkTokens links).length + 1 := by simp [linkTokens]
            have shorter := length_linkTokens_dropWhile (Link.atLeast (rightPrec op.kind)) links
            have fewer := (List.dropWhile_sublist (Link.atLeast (rightPrec op.kind)) (l := links)).length_le
            obtain ⟨first, second, third⟩ :=
              takeWhile_atLeast (tight.trans (getOpPrec_le_rightPrec op.kind)) links
            obtain ⟨less, rfl⟩ : ∃ less, fuel = less + 1 := ⟨fuel - 1, by omega⟩
            obtain ⟨next, more, following, ends⟩ := exists_next links rest closes
            -- the operand and the tighter operators behind it
            have right : parseExprF (less + 1) (rightPrec op.kind)
                (p.reading (operand.tokens ++ (linkTokens links ++ token :: rest))) =
                .ok (climb operand.tree
                    (linkTrees (links.takeWhile (Link.atLeast (rightPrec op.kind)))))
                  (p.reading (linkTokens (links.dropWhile (Link.atLeast (rightPrec op.kind))) ++
                    token :: rest)) := by
              have read := parse less p next more (by omega) ends
              rw [← following] at read
              rw [parseExprF, bind_run_of_ok read]
              exact ih links.length (by simp [← size]) others _ (by omega) rfl
            have loop : ∀ left, parseExprLoop (less + 1) prec left _ = _ := fun left =>
              ih (links.dropWhile (Link.atLeast (rightPrec op.kind))).length
                (by simp only [← size, List.length_cons]; omega)
                (fun link member => others link ((List.dropWhile_sublist _).subset member))
                left (by omega) rfl
            have tokens : linkTokens ((⟨op, binary⟩, operand) :: links) ++ token :: rest =
                op :: (operand.tokens ++ (linkTokens links ++ token :: rest)) := by
              simp [linkTokens]
            have taken : Link.atLeast prec (⟨op, binary⟩, operand) = true := decide_eq_true tight
            rw [tokens, parseExprLoop_op left binary tight, bind_run_of_ok right, loop, third,
              List.takeWhile_cons_of_pos taken, List.dropWhile_cons_of_pos taken, ← second, ← first]
            have climbed := climb_cons left operand.tree op.kind
              (linkTrees (links.takeWhile (Link.atLeast prec)))
            rw [← linkTrees_takeWhile, ← linkTrees_dropWhile] at climbed
            exact congrArg (EStateM.Result.ok · _) climbed.symm
          · have refused : ¬ Link.atLeast prec (⟨op, binary⟩, operand) = true := by
              simpa [Link.atLeast] using tight
            rw [List.takeWhile_cons_of_neg refused, List.dropWhile_cons_of_neg refused]
            exact parseExprLoop_stop left (endsOperand_of_binaryOp binary) (.inr (not_le.mp tight))

theorem Chain.parses_mk {first : Primary} {links : Rest} (firstParses : first.Parses)
    (restParses : ∀ link ∈ links.links, link.2.Parses) : (Chain.mk first links).Parses := by
  intro fuel p closer rest enough closes
  obtain ⟨fuel, rfl⟩ : ∃ less, fuel = less + 1 := ⟨fuel - 1, by omega⟩
  rw [Chain.tokens, links.tokens_eq, List.length_append] at enough
  have nonempty : 1 ≤ first.tokens.length := by cases first <;> simp [Primary.tokens]
  obtain ⟨next, more, following, ends⟩ := exists_next links.links rest closes
  have read := firstParses fuel p next more (by omega) ends
  have all : ∀ link ∈ links.links, Link.atLeast precNone link = true := fun link _ =>
    decide_eq_true (le_of_lt (of_decide_eq_true link.1.2))
  rw [← following] at read
  rw [Chain.tokens, Chain.tree, links.tokens_eq, links.trees_eq, List.append_assoc, parseExprF,
    bind_run_of_ok read, parseExprLoop_links restParses first.tree (by omega) closes,
    List.takeWhile_eq_self_iff.mpr all, List.dropWhile_eq_nil_iff.mpr all]
  rfl

end Loop

/-! Operands, and with them chains by induction on their text. -/

section Operands

variable {fuel : Nat} {p : Parser} {token next : Token} {rest : List Token}

private theorem parseLeftF_paren (opened : token.kind = .oPren) :
    parseLeftF (fuel + 1) (p.reading (token :: rest)) =
      (do
        let node ← parseExprF fuel precNone
        expectAndConsume .cPren
        return node) (p.reading rest) := by
  rw [parseLeftF, bind_run_of_ok (curr_run ..)]
  change (if token.kind = .oPren then _ else _ : ParseM AstNode) _ = _
  rw [if_pos opened, bind_run_of_ok (expectAndConsume_run p token rest opened)]

private theorem parseLeftF_call (name : token.kind = .identifier) (opened : next.kind = .oPren) :
    parseLeftF (fuel + 1) (p.reading (token :: next :: rest)) =
      parseFunctionCallS fuel (p.reading (token :: next :: rest)) := by
  rw [parseLeftF, bind_run_of_ok (curr_run ..)]
  change (if token.kind = .oPren then _ else if token.kind = .identifier ∧ _ then _ else _ :
    ParseM AstNode) _ = _
  rw [if_neg (by rw [name]; decide), if_pos ⟨name, by exact beq_iff_eq.mpr opened⟩]

private theorem parseLeftF_unary (unary : isUnaryOp token.kind = true) :
    parseLeftF (fuel + 1) (p.reading (token :: rest)) =
      parseUnaryLopS fuel (p.reading (token :: rest)) := by
  have notParen : token.kind ≠ .oPren := by
    intro opened
    rw [opened] at unary
    cases unary
  have notName : token.kind ≠ .identifier := by
    intro name
    rw [name] at unary
    cases unary
  rw [parseLeftF, bind_run_of_ok (curr_run ..)]
  change (if token.kind = .oPren then _ else if token.kind = .identifier ∧ _ then _ else
    if isUnaryOp token.kind = true then _ else _ : ParseM AstNode) _ = _
  rw [if_neg notParen, if_neg fun both => notName both.1, if_pos unary]

private theorem parseLeftF_atom (literal : isKindLiteral token.kind = true) (notCall : next.kind ≠ .oPren) :
    parseLeftF (fuel + 1) (p.reading (token :: next :: rest)) =
      (if next.kind = .oBracket then do
        discard pconsume
        let indexExpr ← parseExprF fuel precNone
        expectAndConsume .cBracket
        return indexNode token.atomNode indexExpr
      else return token.atomNode : ParseM AstNode) (p.reading (next :: rest)) := by
  have notParen : token.kind ≠ .oPren := by
    intro opened
    rw [opened] at literal
    cases literal
  have notUnary : ¬ isUnaryOp token.kind = true := by
    intro unary
    cases kind : token.kind <;> rw [kind] at literal unary <;> cases literal <;> cases unary
  rw [parseLeftF, bind_run_of_ok (curr_run ..)]
  change (if token.kind = .oPren then _ else if token.kind = .identifier ∧ _ then _ else
    if isUnaryOp token.kind = true then _ else _ : ParseM AstNode) _ = _
  rw [if_neg notParen, if_neg fun both => notCall (by exact beq_iff_eq.mp both.2), if_neg notUnary,
    bind_run_of_ok (parseAtomF_run ..), bind_run_of_ok (tokField_run ..)]

/-- The first token of an operand ends no list of arguments. -/
theorem Primary.exists_first (operand : Primary) :
    ∃ token tokens, operand.tokens = token :: tokens ∧ token.kind ≠ .cPren := by
  cases operand with
  | atom token =>
      refine ⟨token.1, _, rfl, fun closed => ?_⟩
      have literal := token.2
      rw [closed] at literal
      cases literal
  | index token opened inner closed =>
      refine ⟨token.1, _, rfl, fun closed => ?_⟩
      have literal := token.2
      rw [closed] at literal
      cases literal
  | call name opened args closed => exact ⟨name.1, _, rfl, by rw [name.2]; decide⟩
  | unary op operand =>
      refine ⟨op.1, _, rfl, fun closed => ?_⟩
      have unary := op.2
      rw [closed] at unary
      cases unary
  | paren opened inner closed => exact ⟨opened.1, _, rfl, by rw [opened.2]; decide⟩

theorem Chain.exists_first (chain : Chain) :
    ∃ token tokens, chain.tokens = token :: tokens ∧ token.kind ≠ .cPren := by
  obtain ⟨first, rest⟩ := chain
  obtain ⟨token, tokens, split, notClosed⟩ := first.exists_first
  exact ⟨token, tokens ++ rest.tokens, by rw [Chain.tokens, split, List.cons_append], notClosed⟩

private theorem parseCallArgs_nil (closed : token.kind = .cPren) :
    parseCallArgs (fuel + 1) (p.reading (token :: rest)) = .ok [] (p.reading (token :: rest)) := by
  rw [parseCallArgs, bind_run_of_ok (tokField_run ..), if_pos closed]
  rfl

private theorem parseCallArgs_arg {arg : Chain} (parses : arg.Parses)
    (enough : 3 * arg.tokens.length + 1 ≤ fuel) (closes : getOpPrec token.kind = precNone) :
    parseCallArgs (fuel + 1) (p.reading (arg.tokens ++ token :: rest)) =
      (if token.kind == TokenKind.comma then
        discard pconsume >>= fun _ => (arg.tree :: ·) <$> parseCallArgs fuel
      else (arg.tree :: ·) <$> parseCallArgs fuel : ParseM (List AstNode))
        (p.reading (token :: rest)) := by
  obtain ⟨first, tokens, split, notClosed⟩ := arg.exists_first
  have read := parses fuel p token rest enough closes
  rw [split, List.cons_append] at read ⊢
  rw [parseCallArgs, bind_run_of_ok (tokField_run ..), if_neg notClosed, bind_run_of_ok read,
    bind_run_of_ok (isKind_run ..)]
  rfl

/-- The arguments behind one that was read. -/
def MoreArgs.Parses (more : MoreArgs) : Prop :=
  ∀ (arg : Chain) (fuel : Nat) (p : Parser) (closer : Token) (rest : List Token), arg.Parses →
    3 * (arg.tokens.length + more.tokens.length) + 2 ≤ fuel → closer.kind = .cPren →
    parseCallArgs fuel (p.reading (arg.tokens ++ (more.tokens ++ closer :: rest))) =
      .ok (arg.tree :: more.trees) (p.reading (closer :: rest))

end Operands

mutual

theorem Primary.parses (operand : Primary) : operand.Parses := by
  intro fuel p next rest enough ends
  obtain ⟨fuel, rfl⟩ : ∃ less, fuel = less + 1 := by
    have nonempty : 1 ≤ operand.tokens.length := by cases operand <;> simp [Primary.tokens]
    exact ⟨fuel - 1, by omega⟩
  match operand with
  | .atom token =>
      rw [Primary.tokens, Primary.tree, List.cons_append, List.nil_append,
        parseLeftF_atom token.2 ends.ne_oPren, if_neg ends.ne_oBracket]
      rfl
  | .index token opened inner closed =>
      have tokens : (Primary.index token opened inner closed).tokens ++ next :: rest =
          token.1 :: opened.1 :: (inner.tokens ++ closed.1 :: next :: rest) := by
        simp [Primary.tokens]
      have read := inner.parses fuel p closed.1 (next :: rest)
        (by simp [Primary.tokens] at enough; omega) (by rw [closed.2]; rfl)
      rw [tokens, parseLeftF_atom token.2 (by rw [opened.2]; decide), if_pos opened.2,
        bind_run_of_ok (skip_run ..), bind_run_of_ok read,
        bind_run_of_ok (expectAndConsume_run _ _ _ closed.2)]
      rfl
  | .call name opened args closed =>
      have tokens : (Primary.call name opened args closed).tokens ++ next :: rest =
          name.1 :: opened.1 :: (args.tokens ++ closed.1 :: next :: rest) := by
        simp [Primary.tokens]
      have length : (Primary.call name opened args closed).tokens.length =
          args.tokens.length + 3 := by simp [Primary.tokens]
      obtain ⟨fuel, rfl⟩ : ∃ less, fuel = less + 1 := ⟨fuel - 1, by omega⟩
      have read := args.parses fuel p closed.1 (next :: rest) (by omega) closed.2
      rw [tokens, parseLeftF_call name.2 opened.2, parseFunctionCallS,
        bind_run_of_ok (tokField_run ..), bind_run_of_ok (skip_run ..),
        bind_run_of_ok (expectAndConsume_run _ _ _ opened.2), bind_run_of_ok read,
        bind_run_of_ok (expectAndConsume_run _ _ _ closed.2)]
      rfl
  | .unary op operand =>
      have length : (Primary.unary op operand).tokens.length = operand.tokens.length + 1 := by
        simp [Primary.tokens]
      obtain ⟨fuel, rfl⟩ : ∃ less, fuel = less + 1 := ⟨fuel - 1, by omega⟩
      have read := operand.parses fuel p next rest (by omega) ends
      rw [Primary.tokens, List.cons_append, parseLeftF_unary op.2, parseUnaryLopS,
        bind_run_of_ok (pconsume_run ..)]
      change (parseLeftF fuel >>= _ : ParseM AstNode) _ = _
      rw [bind_run_of_ok read]
      rfl
  | .paren opened inner closed =>
      have read := inner.parses fuel p closed.1 (next :: rest)
        (by simp [Primary.tokens] at enough; omega) (by rw [closed.2]; rfl)
      have tokens : (Primary.paren opened inner closed).tokens ++ next :: rest =
          opened.1 :: (inner.tokens ++ closed.1 :: next :: rest) := by
        simp [Primary.tokens]
      rw [tokens, parseLeftF_paren opened.2, bind_run_of_ok read,
        bind_run_of_ok (expectAndConsume_run _ _ _ closed.2)]
      rfl
  termination_by structural operand

theorem Chain.parses (chain : Chain) : chain.Parses := by
  match chain with
  | .mk first rest => exact Chain.parses_mk first.parses rest.parses
  termination_by structural chain

theorem Rest.parses (rest : Rest) : ∀ link ∈ rest.links, link.2.Parses := by
  match rest with
  | .nil => exact nofun
  | .cons op operand rest =>
      have parse := operand.parses
      have others := rest.parses
      exact List.forall_mem_cons.mpr ⟨parse, others⟩
  termination_by structural rest

theorem Args.parses (args : Args) : args.Parses := by
  intro fuel p closer rest enough closes
  match args with
  | .nil =>
      obtain ⟨fuel, rfl⟩ : ∃ less, fuel = less + 1 := ⟨fuel - 1, by omega⟩
      exact parseCallArgs_nil closes
  | .cons arg more =>
      rw [Args.tokens, List.length_append] at enough
      rw [Args.tokens, List.append_assoc]
      exact more.parses arg fuel p closer rest arg.parses (by omega) closes
  termination_by structural args

theorem MoreArgs.parses (more : MoreArgs) : more.Parses := by
  intro arg fuel p closer rest parses enough closes
  match more with
  | .nil =>
      obtain ⟨fuel, rfl⟩ : ∃ less, fuel = less + 2 := ⟨fuel - 2, by omega⟩
      have last : parseCallArgs (fuel + 1) (p.reading (closer :: rest)) = .ok [] _ :=
        parseCallArgs_nil closes
      rw [MoreArgs.tokens, List.nil_append, parseCallArgs_arg parses (by omega) (by rw [closes]; rfl),
        if_neg (by rw [closes]; decide), map_run_of_ok last]
      rfl
  | .cons comma arg' more =>
      rw [MoreArgs.tokens, List.length_cons, List.length_append] at enough
      obtain ⟨fuel, rfl⟩ : ∃ less, fuel = less + 1 := ⟨fuel - 1, by omega⟩
      have others := more.parses arg' fuel p closer rest arg'.parses (by omega) closes
      rw [MoreArgs.tokens, List.cons_append, List.append_assoc,
        parseCallArgs_arg parses (by omega) (by rw [comma.2]; rfl),
        if_pos (by rw [comma.2]; decide), bind_run_of_ok (skip_run ..), map_run_of_ok others]
      rfl
  termination_by structural more

end

/-- A one-letter name, and a token without a lexeme. -/
def nameToken (letter : Char) : Token := ⟨.identifier, some [byte letter], 0, ⟨1, 1⟩⟩

def markToken (kind : TokenKind) : Token := ⟨kind, none, 0, ⟨1, 1⟩⟩

end Trident
