import Trident.Parser.Rules

/-! What `parse_expr_f` takes from any token list, well formed or not, and how the
tree it returns is made of these tokens. -/

set_option autoImplicit false

namespace Trident

open Foundation

/-! Texts as the parser takes them, with all that it leaves out. -/

mutual

/-- The tokens of an expression as `parse_expr_f` took them. Any token may stand for
an atom, and a closer may be missing. -/
inductive ExprText where
  | atom (token : Token)
  | index (token : Token) (opened : Mark .oBracket) (inner : ExprText)
      (closed : Option (Mark .cBracket))
  | call (name : Mark .identifier) (opened : Mark .oPren) (args : ArgsText) (closed : Mark .cPren)
  | unary (op : TokenOf isUnaryOp) (operand : ExprText)
  | paren (opened : Mark .oPren) (inner : ExprText) (closed : Option (Mark .cPren))
  | binary (left : ExprText) (op : TokenOf isBinaryOp) (right : ExprText)

inductive ArgsText where
  | nil
  | cons (arg : ExprText) (comma : Option (Mark .comma)) (rest : ArgsText)

end

/-- A token that need not be there. -/
def optTokens {kinds : Token → Prop} (token : Option { token : Token // kinds token }) : List Token :=
  token.toList.map Subtype.val

mutual

def ExprText.tokens : ExprText → List Token
  | .atom token => [token]
  | .index token opened inner closed => token :: opened.1 :: (inner.tokens ++ optTokens closed)
  | .call name opened args closed => name.1 :: opened.1 :: (args.tokens ++ [closed.1])
  | .unary op operand => op.1 :: operand.tokens
  | .paren opened inner closed => opened.1 :: (inner.tokens ++ optTokens closed)
  | .binary left op right => left.tokens ++ op.1 :: right.tokens
  termination_by structural text => text

def ArgsText.tokens : ArgsText → List Token
  | .nil => []
  | .cons arg comma rest => arg.tokens ++ (optTokens comma ++ rest.tokens)
  termination_by structural args => args

end

mutual

/-- The tokens apart from parentheses, brackets and argument commas. -/
def ExprText.kept : ExprText → List Token
  | .atom token => [token]
  | .index token _ inner _ => token :: inner.kept
  | .call name _ args _ => name.1 :: args.kept
  | .unary op operand => op.1 :: operand.kept
  | .paren _ inner _ => inner.kept
  | .binary left op right => left.kept ++ op.1 :: right.kept
  termination_by structural text => text

def ArgsText.kept : ArgsText → List Token
  | .nil => []
  | .cons arg _ rest => arg.kept ++ rest.kept
  termination_by structural args => args

end

mutual

def ExprText.tree : ExprText → AstNode
  | .atom token => token.atomNode
  | .index token _ inner _ => indexNode token.atomNode inner.tree
  | .call name _ args _ => .functionCall name.1.lexeme args.trees
  | .unary op operand => .unary op.1.kind operand.tree
  | .paren _ inner _ => inner.tree
  | .binary left op right => .binary left.tree op.1.kind right.tree
  termination_by structural text => text

def ArgsText.trees : ArgsText → List AstNode
  | .nil => []
  | .cons arg _ rest => arg.tree :: rest.trees
  termination_by structural args => args

end

/-- The operator of a binary node that stands in no parentheses. -/
def ExprText.root : ExprText → Option TokenKind
  | .binary _ op _ => some op.1.kind
  | _ => none

/-- The binary operators outside parentheses, brackets and argument lists. -/
def ExprText.outer : ExprText → List TokenKind
  | .unary _ operand => operand.outer
  | .binary left op right => left.outer ++ op.1.kind :: right.outer
  | _ => []

/-- No operator outside parentheses is looser than `op`. -/
def ExprText.Tighter (op : TokenKind) (text : ExprText) : Prop :=
  ∀ inner ∈ text.root, getOpPrec op ≤ getOpPrec inner

mutual

/-- No binary node has an unparenthesised binary child with a looser operator. -/
def ExprText.Grouped : ExprText → Prop
  | .atom _ => True
  | .index _ _ inner _ => inner.Grouped
  | .call _ _ args _ => args.Grouped
  | .unary _ operand => operand.Grouped
  | .paren _ inner _ => inner.Grouped
  | .binary left op right =>
      (left.Tighter op.1.kind ∧ right.Tighter op.1.kind) ∧ left.Grouped ∧ right.Grouped
  termination_by structural text => text

def ArgsText.Grouped : ArgsText → Prop
  | .nil => True
  | .cons arg _ rest => arg.Grouped ∧ rest.Grouped
  termination_by structural args => args

end

mutual

/-- Every parenthesis and bracket is closed. -/
def ExprText.Closed : ExprText → Prop
  | .atom _ => True
  | .index _ _ inner closed => inner.Closed ∧ closed.isSome
  | .call _ _ args _ => args.Closed
  | .unary _ operand => operand.Closed
  | .paren _ inner closed => inner.Closed ∧ closed.isSome
  | .binary left _ right => left.Closed ∧ right.Closed
  termination_by structural text => text

def ArgsText.Closed : ArgsText → Prop
  | .nil => True
  | .cons arg _ rest => arg.Closed ∧ rest.Closed
  termination_by structural args => args

end

/-- The loop of `parse_expr_f` goes no further than this token. -/
def StopsAt (prec : Precedence) (token : Option Token) : Prop :=
  ∀ next ∈ token, EndsOperand next.kind ∧
    (getOpPrec next.kind = precNone ∨ getOpPrec next.kind < prec)

/-- `parse_left_f` takes the token for an atom: it is no parenthesis and no operator. -/
def Token.Plain (token : Token) : Prop := token.kind ≠ .oPren ∧ isUnaryOp token.kind = false

mutual

/-- Every atom is one that `parse_left_f` comes to. No argument begins with a closing
parenthesis, and every one goes on until `parse_expr_f` stops and takes the comma behind it. -/
def ExprText.Plain : ExprText → Prop
  | .atom token => token.Plain
  | .index token _ inner _ => token.Plain ∧ inner.Plain
  | .call _ _ args _ => args.Plain
  | .unary _ operand => operand.Plain
  | .paren _ inner _ => inner.Plain
  | .binary left _ right => left.Plain ∧ right.Plain
  termination_by structural text => text

def ArgsText.Plain : ArgsText → Prop
  | .nil => True
  | .cons arg comma rest =>
      (arg.Plain ∧ NextNot .cPren arg.tokens) ∧
        (comma = none → StopsAt precNone rest.tokens.head? ∧ NextNot .comma rest.tokens) ∧ rest.Plain
  termination_by structural args => args

end

mutual

/-- The atoms and operators of a tree from left to right, with the lowered form of
`x[e]` read as `x[e]`. An atom of kind `INT` without a lexeme comes from that lowering. -/
inductive AstNode.Reads : AstNode → List Token → Prop where
  | atom (token : Token) : Reads token.atomNode [token]
  | index (token : Token) {inner : AstNode} {kept : List Token} :
      Reads inner kept → Reads (indexNode token.atomNode inner) (token :: kept)
  | call (name : Mark .identifier) {args : List AstNode} {kept : List Token} :
      AllRead args kept → Reads (.functionCall name.1.lexeme args) (name.1 :: kept)
  | unary (op : Token) {operand : AstNode} {kept : List Token} :
      Reads operand kept → Reads (.unary op.kind operand) (op :: kept)
  | binary (op : Token) {left right : AstNode} {before after : List Token} :
      Reads left before → Reads right after →
      Reads (.binary left op.kind right) (before ++ op :: after)

inductive AstNode.AllRead : List AstNode → List Token → Prop where
  | nil : AllRead [] []
  | cons {node : AstNode} {nodes : List AstNode} {kept more : List Token} :
      Reads node kept → AllRead nodes more → AllRead (node :: nodes) (kept ++ more)

end

/-! What the tree keeps of the text. -/

mutual

theorem ExprText.reads (text : ExprText) : text.tree.Reads text.kept := by
  match text with
  | .atom token => exact .atom token
  | .index token _ inner _ => exact .index token inner.reads
  | .call name _ args _ => exact .call name args.reads
  | .unary op operand => exact .unary op.1 operand.reads
  | .paren _ inner _ => exact inner.reads
  | .binary left op right => exact .binary op.1 left.reads right.reads
  termination_by structural text

theorem ArgsText.reads (args : ArgsText) : AstNode.AllRead args.trees args.kept := by
  match args with
  | .nil => exact .nil
  | .cons arg _ rest => exact .cons arg.reads rest.reads
  termination_by structural args

end

/-- The kinds of the tokens that leave no trace in a tree. -/
def isDelimiter : TokenKind → Bool
  | .oPren | .cPren | .oBracket | .cBracket | .comma => true
  | _ => false

/-- `kept` is `taken` without some of its delimiters. -/
inductive Apart : List Token → List Token → Prop where
  | nil : Apart [] []
  | keep (token : Token) {taken kept : List Token} :
      Apart taken kept → Apart (token :: taken) (token :: kept)
  | drop (token : Token) {taken kept : List Token} :
      isDelimiter token.kind = true → Apart taken kept → Apart (token :: taken) kept

namespace Apart

variable {taken kept taken' kept' : List Token}

theorem append (first : Apart taken kept) (second : Apart taken' kept') :
    Apart (taken ++ taken') (kept ++ kept') := by
  induction first with
  | nil => exact second
  | keep token _ ih => exact .keep token ih
  | drop token delimiter _ ih => exact .drop token delimiter ih

theorem closer {kind : TokenKind} (delimiter : isDelimiter kind = true) (token : Mark kind) :
    Apart [token.1] [] := .drop token.1 (by rw [token.2]; exact delimiter) .nil

theorem optTokens {kind : TokenKind} (delimiter : isDelimiter kind = true)
    (token : Option (Mark kind)) : Apart (optTokens token) [] := by
  cases token with
  | none => exact .nil
  | some token => exact closer delimiter token

theorem opener {kind : TokenKind} (delimiter : isDelimiter kind = true) (token : Mark kind)
    (rest : Apart taken kept) : Apart (token.1 :: taken) kept :=
  .drop token.1 (by rw [token.2]; exact delimiter) rest

theorem closing (first : Apart taken kept) (second : Apart taken' []) :
    Apart (taken ++ taken') kept := by
  simpa using first.append second

end Apart

mutual

theorem ExprText.apart (text : ExprText) : Apart text.tokens text.kept := by
  match text with
  | .atom token => exact .keep token .nil
  | .index token opened inner closed =>
      exact .keep token (.opener rfl opened (inner.apart.closing (.optTokens rfl closed)))
  | .call name opened args closed =>
      exact .keep name.1 (.opener rfl opened (args.apart.closing (.closer rfl closed)))
  | .unary op operand => exact .keep op.1 operand.apart
  | .paren opened inner closed =>
      exact .opener rfl opened (inner.apart.closing (.optTokens rfl closed))
  | .binary left op right => exact left.apart.append (.keep op.1 right.apart)
  termination_by structural text

theorem ArgsText.apart (args : ArgsText) : Apart args.tokens args.kept := by
  match args with
  | .nil => exact .nil
  | .cons arg comma rest =>
      exact arg.apart.append ((Apart.optTokens rfl comma).append rest.apart)
  termination_by structural args

end

/-! The runs, by induction on the fuel. -/

/-- From `p` to `p'` the parser took the tokens `taken`, and diagnostics were only added. -/
structure Span (taken : List Token) (p p' : Parser) : Prop where
  tok : p.tok = taken ++ p'.tok
  stderr : p.stderr <+: p'.stderr

/-- No diagnostic was added. -/
def Parser.Silent (p p' : Parser) : Prop := p'.stderr = p.stderr

section

variable {p p' p'' : Parser} {taken taken' : List Token} {token : Token} {rest : List Token}

theorem Span.refl (p : Parser) : Span [] p p := ⟨rfl, List.prefix_refl _⟩

theorem Span.trans (first : Span taken p p') (second : Span taken' p' p'') :
    Span (taken ++ taken') p p'' where
  tok := by rw [first.tok, second.tok, List.append_assoc]
  stderr := first.stderr.trans second.stderr

theorem Span.read (at_ : p.tok = token :: rest) : Span [token] p (p.reading rest) :=
  ⟨at_, List.prefix_refl _⟩

theorem Span.silent (first : Span taken p p') (second : Span taken' p' p'')
    (silent : p.Silent p'') : p.Silent p' ∧ p'.Silent p'' := by
  have whole := silent.symm ▸ second.stderr
  have same : p'.stderr = p.stderr := whole.eq_of_length_le first.stderr.length_le
  exact ⟨same, silent.trans same.symm⟩

end

/-- `parse_expr_f` and its parts took the text from `p` and left `p'`. -/
structure ExprText.Taken (text : ExprText) (p p' : Parser) : Prop where
  span : Span text.tokens p p'
  closed : p.Silent p' → text.Closed
  grouped : text.Grouped
  plain : text.Plain

structure ArgsText.Taken (args : ArgsText) (p p' : Parser) : Prop where
  span : Span args.tokens p p'
  closed : p.Silent p' → args.Closed
  grouped : args.Grouped
  plain : args.Plain

/-- The run returns only what satisfies the postcondition. -/
abbrev Returns {α : Type} (post : α → Parser → Prop) (action : ParseM α) (p : Parser) : Prop :=
  RunEnds post (fun _ _ => True) action p

private theorem returns_closer (kind : TokenKind) (p : Parser) :
    Returns (fun _ p' => ∃ closed : Option (Mark kind),
      Span (optTokens closed) p p' ∧ (p.Silent p' → closed.isSome)) (expectAndConsume kind) p := by
  have plain : expectAndConsume kind = expectAndConsume kind >>= pure := (bind_pure _).symm
  rw [plain]
  refine expectAndConsume_ends (fun _ => trivial) (fun token rest at_ different => ?_)
    fun token rest at_ same => ?_
  · refine ⟨none, ⟨rfl, List.prefix_append ..⟩, fun silent => ?_⟩
    exact absurd (congrArg List.length silent) (by simp [Parser.reporting])
  · exact ⟨some ⟨token, same⟩, .read at_, fun _ => rfl⟩

namespace ExprText

section

variable {p q r s : Parser}

theorem Taken.atom {token : Token} {rest : List Token} (at_ : p.tok = token :: rest)
    (plain : token.Plain) : (atom token).Taken p (p.reading rest) :=
  ⟨.read at_, fun _ => trivial, trivial, plain⟩

theorem Taken.binary {left right : ExprText} {op : TokenOf isBinaryOp} {rest : List Token}
    (before : left.Taken p q) (at_ : q.tok = op.1 :: rest) (after : right.Taken (q.reading rest) r)
    (tighter : left.Tighter op.1.kind) (tighter' : right.Tighter op.1.kind) :
    (binary left op right).Taken p r where
  span := before.span.trans ((Span.read at_).trans after.span)
  closed := fun silent => by
    have later := (Span.read at_).trans after.span
    obtain ⟨first, second⟩ := before.span.silent later silent
    exact ⟨before.closed first, after.closed ((Span.read at_).silent after.span second).2⟩
  grouped := ⟨⟨tighter, tighter'⟩, before.grouped, after.grouped⟩
  plain := ⟨before.plain, after.plain⟩

theorem Taken.unary {operand : ExprText} {op : TokenOf isUnaryOp} {rest : List Token}
    (at_ : p.tok = op.1 :: rest) (after : operand.Taken (p.reading rest) q) :
    (unary op operand).Taken p q where
  span := (Span.read at_).trans after.span
  closed := fun silent => after.closed ((Span.read at_).silent after.span silent).2
  grouped := after.grouped
  plain := after.plain

theorem Taken.paren {inner : ExprText} {opened : Mark .oPren} {closed : Option (Mark .cPren)}
    {rest : List Token} (at_ : p.tok = opened.1 :: rest) (inside : inner.Taken (p.reading rest) q)
    (closes : Span (optTokens closed) q r) (present : q.Silent r → closed.isSome) :
    (paren opened inner closed).Taken p r where
  span := (Span.read at_).trans (inside.span.trans closes)
  closed := fun silent => by
    have later := ((Span.read at_).silent (inside.span.trans closes) silent).2
    obtain ⟨first, second⟩ := inside.span.silent closes later
    exact ⟨inside.closed first, present second⟩
  grouped := inside.grouped
  plain := inside.plain

theorem Taken.index {token : Token} {inner : ExprText} {opened : Mark .oBracket}
    {closed : Option (Mark .cBracket)} {rest rest' : List Token} (at_ : p.tok = token :: rest)
    (plain : token.Plain) (at_' : (p.reading rest).tok = opened.1 :: rest')
    (inside : inner.Taken ((p.reading rest).reading rest') q)
    (closes : Span (optTokens closed) q r) (present : q.Silent r → closed.isSome) :
    (index token opened inner closed).Taken p r where
  span := (Span.read at_).trans ((Span.read at_').trans (inside.span.trans closes))
  closed := fun silent => by
    have open_ := (Span.read at_).trans (Span.read at_')
    have later := (open_.silent (inside.span.trans closes) silent).2
    obtain ⟨first, second⟩ := inside.span.silent closes later
    exact ⟨inside.closed first, present second⟩
  grouped := inside.grouped
  plain := ⟨plain, inside.plain⟩

theorem Taken.call {name : Mark .identifier} {opened : Mark .oPren} {args : ArgsText}
    {closed : Mark .cPren} {rest rest' rest'' : List Token} (at_ : p.tok = name.1 :: rest)
    (at_' : (p.reading rest).tok = opened.1 :: rest')
    (inside : args.Taken ((p.reading rest).reading rest') q) (at_'' : q.tok = closed.1 :: rest'') :
    (call name opened args closed).Taken p (q.reading rest'') where
  span := (Span.read at_).trans ((Span.read at_').trans (inside.span.trans (.read at_'')))
  closed := fun silent => by
    have open_ := (Span.read at_).trans (Span.read at_')
    have later := (open_.silent (inside.span.trans (.read at_'')) silent).2
    exact inside.closed (inside.span.silent (.read at_'') later).1
  grouped := inside.grouped
  plain := inside.plain

theorem Taken.args {arg : ExprText} {comma : Option (Mark .comma)} {rest : ArgsText}
    (opens : NextNot .cPren p.tok) (first : arg.Taken p q) (stops : StopsAt precNone q.tok.head?)
    (separator : Span (optTokens comma) q r) (none_ : comma = none → NextNot .comma q.tok)
    (more : rest.Taken r s) : (ArgsText.cons arg comma rest).Taken p s where
  span := first.span.trans (separator.trans more.span)
  closed := fun silent => by
    obtain ⟨here, later⟩ := first.span.silent (separator.trans more.span) silent
    exact ⟨first.closed here, more.closed (separator.silent more.span later).2⟩
  grouped := ⟨first.grouped, more.grouped⟩
  plain := by
    have begins : NextNot .cPren arg.tokens := fun next member =>
      opens next (by rw [first.span.tok]; exact List.mem_head?_append_of_mem_head? member)
    refine ⟨⟨first.plain, begins⟩, fun missing => ?_, more.plain⟩
    have follows : q.tok = rest.tokens ++ s.tok := by
      rw [separator.tok, missing, more.span.tok]
      rfl
    exact ⟨fun next member => stops next (follows ▸ List.mem_head?_append_of_mem_head? member),
      fun next member => none_ missing next (follows ▸ List.mem_head?_append_of_mem_head? member)⟩

end

theorem root_of_outer {text : ExprText} (none_ : text.outer = []) : text.root = none := by
  cases text with
  | binary left op right => simp [outer] at none_
  | _ => rfl

theorem root_mem_outer {text : ExprText} {op : TokenKind} (root : op ∈ text.root) :
    op ∈ text.outer := by
  cases text with
  | binary left op' right =>
      cases root
      simp [outer]
  | _ => cases root

/-- What `parse_expr_f` returns when it has come from `p` to `p'`. -/
def TakenAt (p : Parser) (prec : Precedence) (tree : AstNode) (p' : Parser) : Prop :=
  ∃ text : ExprText, text.tree = tree ∧ text.Taken p p' ∧
    (∀ op ∈ text.outer, prec ≤ getOpPrec op) ∧ StopsAt prec p'.tok.head?

/-- What `parse_left_f` returns. -/
def TakenLeft (p : Parser) (tree : AstNode) (p' : Parser) : Prop :=
  ∃ text : ExprText, text.tree = tree ∧ text.Taken p p' ∧ text.outer = []

/-- What the expression parsers return, from `p`. -/
structure Sound (fuel : Nat) (p : Parser) : Prop where
  expr : ∀ prec, Returns (TakenAt p prec) (parseExprF fuel prec) p
  loop : ∀ prec (before : ExprText) q, before.Taken q p →
    (∀ op ∈ before.outer, prec ≤ getOpPrec op) → (∀ next ∈ p.tok.head?, before.Tighter next.kind) →
    Returns (TakenAt q prec) (parseExprLoop fuel prec before.tree) p
  call : ∀ (name : Mark .identifier) (opened : Mark .oPren) rest,
    p.tok = name.1 :: opened.1 :: rest → Returns (TakenLeft p) (parseFunctionCallS fuel) p
  args : Returns (fun trees p' => ∃ args : ArgsText, args.trees = trees ∧ args.Taken p p' ∧
    ∃ (closed : Mark .cPren) (rest : List Token), p'.tok = closed.1 :: rest) (parseCallArgs fuel) p
  unary : ∀ (op : TokenOf isUnaryOp) rest, p.tok = op.1 :: rest →
    Returns (TakenLeft p) (parseUnaryLopS fuel) p
  left : Returns (TakenLeft p) (parseLeftF fuel) p

/-- The operand behind an operator, and the token it stops at, are as tight as the operator asks. -/
theorem tighter_of_stopsAt {op : TokenKind} (binary : isBinaryOp op = true) {next : Option Token}
    (stops : StopsAt (rightPrec op) next) : ∀ token ∈ next, getOpPrec token.kind ≤ getOpPrec op := by
  intro token member
  obtain ⟨-, none_ | below⟩ := stops token member
  · rw [none_]
    exact le_of_lt (of_decide_eq_true binary)
  · unfold rightPrec at below
    split at below
    · exact Int.lt_add_one_iff.mp below
    · exact below.le

theorem isBinaryOp_of_known {kind : TokenKind} (known : EndsOperand kind)
    (operator : getOpPrec kind ≠ precNone) : isBinaryOp kind = true := by
  cases kind <;> first | rfl | exact absurd rfl known | exact absurd rfl operator

theorem sound (fuel : Nat) (p : Parser) : Sound fuel p := by
  induction fuel generalizing p with
  | zero => constructor <;> intros <;> trivial
  | succ fuel ih =>
      constructor
      · intro prec
        apply RunEnds.bind (ih p).left
        rintro _ p' ⟨text, rfl, taken, none_⟩
        apply (ih p').loop prec text p taken
        · simp [none_]
        · simp [Tighter, root_of_outer none_]
      · intro prec before q taken outer tight
        apply curr_ends
        · intro ended
          exact ⟨before, rfl, taken, outer, by simp [StopsAt, ended]⟩
        intro token rest at_
        dsimp only
        split
        · trivial
        next known =>
          split
          next loose => exact ⟨before, rfl, taken, outer, by simp [StopsAt, at_, EndsOperand, known, loose]⟩
          next operator =>
            rw [not_or, not_lt] at operator
            have binary := isBinaryOp_of_known known operator.1
            apply skip_ends at_
            apply RunEnds.bind ((ih _).expr (rightPrec token.kind))
            rintro _ p' ⟨right, rfl, after, outer', stops⟩
            have tighter := outer'
            apply (ih p').loop prec (.binary before ⟨token, binary⟩ right) q
            · apply taken.binary at_ after (tight token (by simp [at_]))
              intro inner root
              exact (getOpPrec_le_rightPrec _).trans (outer' inner (root_mem_outer root))
            · intro op member
              simp only [ExprText.outer, List.mem_append, List.mem_cons] at member
              obtain member | rfl | member := member
              · exact outer op member
              · exact operator.2
              · exact (operator.2.trans (getOpPrec_le_rightPrec _)).trans (outer' op member)
            · intro next member op root
              cases root
              exact tighter_of_stopsAt binary stops next member
      · intro name opened rest at_
        apply tokField_ends (fun _ => trivial)
        intro token rest' at_'
        cases at_.symm.trans at_'
        apply skip_ends at_
        apply expectAndConsume_ends (fun _ => trivial)
        · intro token rest' at_' different
          cases at_'
          exact absurd opened.2 different
        intro token rest' at_' _
        cases at_'
        apply RunEnds.bind (ih _).args
        rintro _ q ⟨args, rfl, taken, closed, rest', closes⟩
        apply expectAndConsume_ends (fun _ => trivial)
        · intro token rest'' at_' different
          cases closes.symm.trans at_'
          exact absurd closed.2 different
        intro token rest'' at_' _
        cases closes.symm.trans at_'
        exact ⟨.call name opened args closed, rfl, .call at_ rfl taken closes, rfl⟩
      · apply tokField_ends (fun _ => trivial)
        intro token rest at_
        split
        next closes => exact ⟨.nil, rfl, ⟨.refl p, fun _ => trivial, trivial, trivial⟩, ⟨token, closes⟩, rest, at_⟩
        next other =>
          have opens : NextNot .cPren p.tok := by simpa [NextNot, at_] using other
          apply RunEnds.bind ((ih p).expr precNone)
          rintro _ q ⟨arg, rfl, taken, -, stops⟩
          apply isKind_ends
          · intro none_
            apply RunEnds.bind (ih q).args
            rintro _ p' ⟨args, rfl, more, closes⟩
            exact ⟨.cons arg none args, rfl, taken.args opens stops (.refl q) (fun _ => none_) more, closes⟩
          · intro token rest' at_' comma
            apply skip_ends at_'
            apply RunEnds.bind (ih _).args
            rintro _ p' ⟨args, rfl, more, closes⟩
            exact ⟨.cons arg (some ⟨token, comma⟩) args, rfl,
              taken.args opens stops (.read at_')
                (fun missing => absurd missing (Option.some_ne_none _)) more, closes⟩
      · intro op rest at_
        apply pconsume_ends (fun _ => trivial)
        intro token rest' at_'
        cases at_.symm.trans at_'
        apply RunEnds.bind (ih _).left
        rintro _ p' ⟨operand, rfl, taken, none_⟩
        exact ⟨.unary op operand, rfl, .unary at_ taken, none_⟩
      · apply current_ends (fun _ => trivial)
        intro token rest at_
        apply ppeak_ends
        split
        next opens =>
          apply expectAndConsume_ends (fun _ => trivial)
          · intro token' rest' at_' different
            cases at_.symm.trans at_'
            exact absurd opens different
          intro token' rest' at_' opened
          apply RunEnds.bind ((ih _).expr precNone)
          rintro _ q ⟨inner, rfl, taken, -⟩
          apply RunEnds.bind (returns_closer .cPren q)
          rintro _ p' ⟨closed, closes, present⟩
          exact ⟨.paren ⟨token', opened⟩ inner closed, rfl, .paren at_' taken closes present, rfl⟩
        next other =>
          split
          next called =>
            obtain ⟨identifier, opened⟩ := called
            obtain ⟨opened', more, head⟩ : ∃ opened' more, rest = opened' :: more := by
              cases rest with
              | nil => simp [at_] at opened
              | cons opened' more => exact ⟨opened', more, rfl⟩
            subst head
            have opens : opened'.kind = .oPren := by simpa [at_] using opened
            exact (ih p).call ⟨token, identifier⟩ ⟨opened', opens⟩ more at_
          next =>
            split
            next op => exact (ih p).unary ⟨token, op⟩ rest at_
            next noOp =>
              have plain : token.Plain := ⟨other, Bool.eq_false_iff.mpr noOp⟩
              apply parseAtomF_ends at_
              apply tokField_ends (fun _ => trivial)
              intro opened rest' at_'
              split
              next opens =>
                apply skip_ends at_'
                apply RunEnds.bind ((ih _).expr precNone)
                rintro _ q ⟨inner, rfl, taken, -⟩
                apply RunEnds.bind (returns_closer .cBracket q)
                rintro _ p' ⟨closed, closes, present⟩
                exact ⟨.index token ⟨opened, opens⟩ inner closed, rfl,
                  .index at_ plain at_' taken closes present, rfl⟩
              next => exact ⟨.atom token, rfl, .atom at_ plain, rfl⟩

end ExprText

/-- What `parse_expr_f` returns is the tree of the tokens it took, in their order and
grouped by precedence, and it stops in front of a token that does not belong to them. -/
theorem parseExprF_taken {fuel : Nat} {prec : Precedence} {p p' : Parser} {tree : AstNode}
    (returned : parseExprF fuel prec p = .ok tree p') :
    ∃ text : ExprText, text.tree = tree ∧ p.tok = text.tokens ++ p'.tok ∧
      Apart text.tokens text.kept ∧ tree.Reads text.kept ∧ text.Grouped ∧
      (∀ op ∈ text.outer, prec ≤ getOpPrec op) ∧ StopsAt prec p'.tok.head? := by
  obtain ⟨text, rfl, taken, outer, stops⟩ := ((ExprText.sound fuel p).expr prec).of_ok returned
  exact ⟨text, rfl, taken.span.tok, text.apart, text.reads, taken.grouped, outer, stops⟩

/-- `a - b[c];` -/
def indexTokens : List Token :=
  [nameToken 'a', markToken .sub, nameToken 'b', markToken .oBracket, nameToken 'c',
    markToken .cBracket, markToken .semicolon]

def indexTree : AstNode :=
  .binary (nameToken 'a').atomNode .sub
    (indexNode (nameToken 'b').atomNode (nameToken 'c').atomNode)

theorem parseExprF_taken_index :
    ∃ text : ExprText, text.tree = indexTree ∧
      indexTokens = text.tokens ++ [markToken .semicolon] ∧ Apart text.tokens text.kept ∧
      indexTree.Reads text.kept ∧ text.Grouped ∧ (∀ op ∈ text.outer, precNone ≤ getOpPrec op) ∧
      StopsAt precNone (some (markToken .semicolon)) := by
  have run : parseExprF 12 precNone ((initParser []).reading indexTokens) =
      .ok indexTree ((initParser []).reading [markToken .semicolon]) := rfl
  exact parseExprF_taken run

end Trident
