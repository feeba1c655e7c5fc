import Trident.Parser.Language

/-! A reading without diagnostics that takes nothing but what belongs in its place is a text of
the grammar, and its names are those of identifiers. -/

set_option autoImplicit false

namespace Trident

/-! Names. -/

mutual

/-- The names in a tree. -/
def AstNode.names : AstNode → List CStr
  | .atom kind value _ => if kind = .identifier then [value] else []
  | .unary _ node => node.names
  | .binary left _ right => left.names ++ right.names
  | .expr node => node.names
  | .scope _ body => namesOf body
  | .function name _ _ _ body => name :: body.names
  | .functionCall name args => name :: namesOf args
  | .extrn name => [name]
  | .auto name _ => [name]
  | .if_ condition body chain => condition.names ++ (body.names ++ namesOfOption chain)
  | .elseIf condition body chain => condition.names ++ (body.names ++ namesOfOption chain)
  | .else_ _ body => namesOf body
  | .while_ condition body => condition.names ++ body.names
  | .return_ node => namesOfOption node
  | .lable name => [name]
  | .goto name => [name]
  | .global name _ => [name]
  termination_by structural node => node

def namesOf : List AstNode → List CStr
  | [] => []
  | node :: nodes => node.names ++ namesOf nodes
  termination_by structural nodes => nodes

def namesOfOption : Option AstNode → List CStr
  | none => []
  | some node => node.names
  termination_by structural node => node

end

@[simp]
theorem namesOf_append (nodes nodes' : List AstNode) :
    namesOf (nodes ++ nodes') = namesOf nodes ++ namesOf nodes' := by
  induction nodes with
  | nil => rfl
  | cons node nodes ih => simp [namesOf, ih]

def Use.names : Use → List CStr
  | .name token => [token.lexeme]
  | _ => []

/-- The names that are taken apart from operands. -/
def usedNames (uses : List Use) : List CStr := uses.flatMap Use.names

@[simp]
theorem usedNames_cons (use : Use) (uses : List Use) :
    usedNames (use :: uses) = use.names ++ usedNames uses := rfl

@[simp]
theorem usedNames_append (uses uses' : List Use) :
    usedNames (uses ++ uses') = usedNames uses ++ usedNames uses' := List.flatMap_append ..

/-- The names are lexemes of identifiers among the tokens. -/
def NamedIn (tokens : List Token) (names : List CStr) : Prop :=
  ∀ name ∈ names, ∃ token ∈ tokens, token.kind = .identifier ∧ token.lexeme = name

namespace NamedIn

variable {tokens tokens' : List Token} {names names' : List CStr}

theorem nil : NamedIn tokens [] := nofun

theorem mono (named : NamedIn tokens names) (subset : tokens ⊆ tokens') : NamedIn tokens' names := by
  intro name member
  obtain ⟨token, at_, same⟩ := named name member
  exact ⟨token, subset at_, same⟩

theorem behind (token : Token) (named : NamedIn tokens names) : NamedIn (token :: tokens) names :=
  named.mono (List.subset_cons_self ..)

theorem before (tokens' : List Token) (named : NamedIn tokens names) :
    NamedIn (tokens ++ tokens') names := named.mono (List.subset_append_left ..)

theorem both (first : NamedIn tokens names) (second : NamedIn tokens names') :
    NamedIn tokens (names ++ names') :=
  fun name member => (List.mem_append.mp member).elim (first name) (second name)

theorem append (first : NamedIn tokens names) (second : NamedIn tokens' names') :
    NamedIn (tokens ++ tokens') (names ++ names') :=
  (first.before tokens').both (second.mono (List.subset_append_right ..))

theorem cons (token : Mark .identifier) (named : NamedIn tokens names) :
    NamedIn (token.1 :: tokens) (token.1.lexeme :: names) := by
  rintro name (_ | ⟨_, member⟩)
  · exact ⟨token.1, List.mem_cons_self, token.2, rfl⟩
  · exact named.behind token.1 name member

theorem single (token : Mark .identifier) (tokens : List Token) :
    NamedIn (token.1 :: tokens) [token.1.lexeme] := nil.cons token

end NamedIn

theorem Token.named_atomNode (token : Token) : NamedIn [token] token.atomNode.names := by
  unfold atomNode AstNode.names
  split
  next identifier => exact NamedIn.nil.cons ⟨token, identifier⟩
  next => exact .nil

mutual

theorem ExprText.named (text : ExprText) :
    NamedIn text.tokens text.tree.names ∧ NamedIn text.tokens (usedNames text.uses) := by
  match text with
  | .atom token => exact ⟨token.named_atomNode, .nil⟩
  | .index token opened inner closed =>
      have inside := (inner.named.1.before (optTokens closed)).behind opened.1 |>.behind token
      have outside := token.named_atomNode.before (opened.1 :: (inner.tokens ++ optTokens closed))
      refine ⟨?_, ((inner.named.2.before (optTokens closed)).behind opened.1).behind token⟩
      simpa [ExprText.tokens, ExprText.tree, indexNode, AstNode.names] using inside.both outside
  | .call name opened args closed =>
      have inside := (args.named.1.before [closed.1]).behind opened.1
      have inside' := (args.named.2.before [closed.1]).behind opened.1
      exact ⟨inside.cons name, inside'.cons name⟩
  | .unary op operand => exact ⟨operand.named.1.behind op.1, operand.named.2.behind op.1⟩
  | .paren opened inner closed =>
      exact ⟨(inner.named.1.before _).behind opened.1, (inner.named.2.before _).behind opened.1⟩
  | .binary left op right =>
      refine ⟨left.named.1.append (right.named.1.behind op.1), ?_⟩
      simpa [ExprText.tokens, ExprText.uses] using left.named.2.append (right.named.2.behind op.1)
  termination_by structural text

theorem ArgsText.named (args : ArgsText) :
    NamedIn args.tokens (namesOf args.trees) ∧ NamedIn args.tokens (usedNames args.uses) := by
  match args with
  | .nil => exact ⟨.nil, .nil⟩
  | .cons arg comma rest =>
      have later := rest.named.1.mono (List.subset_append_right (optTokens comma) rest.tokens)
      have later' := rest.named.2.mono (List.subset_append_right (optTokens comma) rest.tokens)
      refine ⟨arg.named.1.append later, ?_⟩
      simpa [ArgsText.tokens, ArgsText.uses, Use.names] using arg.named.2.append later'
  termination_by structural args

end

/-! A reading that takes nothing out of place. -/

/-- The tokens before `rest` are of the language, and the names are identifiers of them. -/
def Derives (is : List Token → Prop) (uses : List Use) (names : List CStr) (tokens rest : List Token) :
    Prop :=
  ∃ taken, tokens = taken ++ rest ∧ is taken ∧ NamedIn taken (usedNames uses) ∧ NamedIn taken names

theorem Expected.found_of_silent {kind : TokenKind} {tokens rest : List Token} {diags : List Diag}
    {token : Token} (expected : Expected kind tokens rest diags token) (silent : diags = []) :
    token.kind = kind ∧ tokens = token :: rest := by
  cases expected with
  | found mark => exact ⟨mark.2, rfl⟩
  | missing => cases silent

theorem ExprReads.named {tokens rest : List Token} {diags : List Diag} {uses : List Use}
    {node : AstNode} (reads : ExprReads tokens rest diags uses node) :
    ∃ taken, tokens = taken ++ rest ∧ NamedIn taken (usedNames uses) ∧ NamedIn taken node.names := by
  obtain ⟨text, rfl, rfl, rfl, -⟩ := reads
  exact ⟨_, rfl, text.named.2, text.named.1⟩

theorem ExprReads.derives {tokens rest : List Token} {diags : List Diag} {uses : List Use}
    {node : AstNode} (reads : ExprReads tokens rest diags uses node) (silent : diags = [])
    (proper : AllProper uses) : Derives IsExpr uses node.names tokens rest := by
  subst silent
  obtain ⟨taken, same, isExpr⟩ := reads.scan.isExpr proper
  obtain ⟨taken', rfl, named⟩ := reads.named
  cases List.append_cancel_right same
  exact ⟨_, rfl, isExpr, named⟩

theorem AutoSizeReads.derives {tokens rest : List Token} {diags : List Diag} {count : Nat}
    (reads : AutoSizeReads tokens rest diags count) (silent : diags = []) :
    ∃ taken, tokens = taken ++ rest ∧ ∀ name : Mark .identifier, IsVariable (name.1 :: taken) := by
  cases reads with
  | none => exact ⟨[], rfl, .scalar⟩
  | size opened size closing =>
      obtain ⟨first, second⟩ := List.append_eq_nil_iff.mp silent
      obtain ⟨int, rfl⟩ := size.found_of_silent first
      obtain ⟨closes, rfl⟩ := closing.found_of_silent second
      exact ⟨[_, _, _], rfl, fun name => .vector name opened ⟨_, int⟩ ⟨_, closes⟩⟩

theorem AutosRead.derives {tokens rest : List Token} {diags : List Diag} {uses : List Use}
    {nodes : List AstNode} (reads : AutosRead tokens rest diags uses nodes) (silent : diags = []) :
    Derives (CommaSeparated IsVariable) uses (namesOf nodes) tokens rest := by
  induction reads with
  | last name _ size _ =>
      obtain ⟨first, second⟩ := List.append_eq_nil_iff.mp silent
      obtain ⟨identifier, rfl⟩ := name.found_of_silent first
      obtain ⟨taken, rfl, isVariable⟩ := size.derives second
      have here := NamedIn.single ⟨_, identifier⟩ taken
      exact ⟨_, rfl, .one (isVariable ⟨_, identifier⟩), here, here⟩
  | cons comma name _ size _ ih =>
      obtain ⟨first, later⟩ := List.append_eq_nil_iff.mp silent
      obtain ⟨second, third⟩ := List.append_eq_nil_iff.mp later
      obtain ⟨identifier, rfl⟩ := name.found_of_silent first
      obtain ⟨taken, rfl, isVariable⟩ := size.derives second
      obtain ⟨taken', rfl, areVariables, used, named⟩ := ih third
      have here := NamedIn.single ⟨_, identifier⟩ taken
      exact ⟨_, by simp, .cons comma (isVariable ⟨_, identifier⟩) areVariables,
        here.append (used.behind comma.1), here.append (named.behind comma.1)⟩

theorem ExternsRead.derives {tokens rest : List Token} {uses : List Use} {nodes : List AstNode}
    (reads : ExternsRead tokens rest uses nodes) (proper : AllProper uses) :
    Derives (CommaSeparated IsIdentifier) uses (namesOf nodes) tokens rest := by
  induction reads with
  | last name comma _ =>
      simp only [allProper_cons] at proper
      obtain ⟨identifier, separated, -⟩ := proper
      have here := NamedIn.single ⟨name, identifier⟩ []
      cases comma with
      | none => exact ⟨[name], rfl, .one (.name ⟨name, identifier⟩), here, here⟩
      | some comma => cases separated
  | cons name comma _ _ ih =>
      simp only [allProper_cons] at proper
      obtain ⟨identifier, separated, others⟩ := proper
      obtain ⟨taken, rfl, areNames, used, named⟩ := ih others
      have here := NamedIn.single ⟨name, identifier⟩ []
      cases comma with
      | none => cases separated
      | some comma =>
          exact ⟨_, rfl, .cons comma (.name ⟨name, identifier⟩) areNames,
            here.append (used.behind comma.1), here.append (named.behind comma.1)⟩

theorem ExternReads.derives {tokens rest : List Token} {uses : List Use} {nodes : List AstNode}
    (reads : ExternReads tokens rest uses nodes) (proper : AllProper uses) :
    Derives IsExtern uses (namesOf nodes) tokens rest := by
  obtain ⟨word, semicolon, names⟩ := reads
  obtain ⟨taken, rfl, areNames, used, named⟩ := names.derives proper
  exact ⟨word.1 :: (taken ++ [semicolon.1]), by simp, .extrn word semicolon areNames,
    (used.before _).behind word.1, (named.before _).behind word.1⟩

theorem DeclarationReads.derives {tokens rest : List Token} {diags : List Diag} {uses : List Use}
    {nodes : List AstNode} (reads : DeclarationReads tokens rest diags uses nodes)
    (silent : diags = []) (proper : AllProper uses) :
    Derives IsStatement uses (namesOf nodes) tokens rest := by
  cases reads with
  | auto word autos closing =>
      obtain ⟨first, second⟩ := List.append_eq_nil_iff.mp silent
      obtain ⟨taken, rfl, areVariables, used, named⟩ := autos.derives first
      obtain ⟨closes, rfl⟩ := closing.found_of_silent second
      exact ⟨word.1 :: (taken ++ [_]), by simp, .auto word ⟨_, closes⟩ areVariables,
        (used.before _).behind word.1, (named.before _).behind word.1⟩
  | extrn reads =>
      obtain ⟨taken, rfl, isExtern, used, named⟩ := reads.derives proper
      exact ⟨taken, rfl, .extrn isExtern, used, named⟩
  | comma mark => cases proper _ List.mem_cons_self

/-! Statements. -/

theorem of_bareReturn {tokens : List Token} (bare : bareReturn tokens = true) :
    ∃ word semicolon op more, tokens = word :: semicolon :: op :: more ∧ word.kind = .return_ ∧
      semicolon.kind = .semicolon ∧ isUnaryOp op.kind = true := by
  unfold bareReturn at bare
  split at bare
  next word semicolon op more =>
    simp only [Bool.and_eq_true, beq_iff_eq] at bare
    exact ⟨word, semicolon, op, more, rfl, bare.1.1, bare.1.2, bare.2⟩
  next => cases bare

private theorem bodyUses_of_not_bare {tokens : List Token} {uses : List Use} (other : ¬ bareReturn tokens = true) :
    bodyUses tokens uses = uses := by
  unfold bodyUses
  split
  next => rw [if_neg other]
  next => rfl

private theorem usedNames_bodyUses (tokens : List Token) (uses : List Use) :
    usedNames (bodyUses tokens uses) = usedNames uses := by
  unfold bodyUses
  split
  next =>
    split
    · simp [Use.names]
    · rfl
  next => rfl

theorem StatementReads.of_return {word : Token} {value rest : List Token} {diags : List Diag}
    {uses : List Use} {node : AstNode} (reads : StatementReads (word :: value) rest diags uses node)
    (return_ : word.kind = .return_) : ∃ (closing : List Token) (diags' diags'' : List Diag)
      (semicolon : Token) (expr : AstNode), diags = diags' ++ diags'' ∧
        ExprReads value closing diags' uses expr ∧ Expected .semicolon closing rest diags'' semicolon ∧
        node = .return_ (some expr) := by
  generalize tokens_eq : word :: value = tokens at reads
  cases reads with
  | return_ word' read closing =>
      obtain ⟨-, rfl⟩ := List.cons.inj tokens_eq
      exact ⟨_, _, _, _, _, rfl, read, closing, rfl⟩
  | goto word' => grind
  | lable name => grind
  | expr ahead =>
      obtain ⟨other, -⟩ := ahead
      obtain ⟨rfl, -⟩ := List.cons.inj tokens_eq
      rw [return_] at other
      cases other
  | scope _ opens =>
      subst tokens_eq
      obtain ⟨_, ⟨rfl⟩, opens⟩ := opens
      cases return_.symm.trans opens
  | if_ reads =>
      obtain ⟨word'⟩ := reads
      grind
  | while_ word' => grind

/-- Where an operator follows `return;` there are two statements. -/
theorem StatementReads.derives_bare {tokens rest : List Token} {diags : List Diag} {uses : List Use}
    {node : AstNode} (reads : StatementReads tokens rest diags uses node)
    (bare : bareReturn tokens = true) (silent : diags = []) (proper : AllProper (bodyUses tokens uses)) :
    ∃ first second, tokens = first ++ (second ++ rest) ∧ IsStatement first ∧ IsStatement second ∧
      NamedIn (first ++ second) (usedNames uses) ∧ NamedIn (first ++ second) node.names := by
  obtain ⟨word, semicolon, op, more, rfl, return_, semicolon_, unary⟩ := of_bareReturn bare
  obtain ⟨closing, diags', diags'', _, expr, rfl, read, closer, rfl⟩ := reads.of_return return_
  obtain ⟨first, second⟩ := List.append_eq_nil_iff.mp silent
  obtain ⟨closes, rfl⟩ := closer.found_of_silent second
  subst first
  obtain ⟨uses', rfl, scan⟩ := read.scan.of_semicolon semicolon_ unary
  have others : AllProper uses' := by simpa only [bodyUses, if_pos bare] using proper
  obtain ⟨value, rfl, isExpr⟩ := scan.isExpr others
  obtain ⟨taken, same, used, named⟩ := read.named
  obtain rfl : taken = semicolon :: op :: value := List.append_cancel_right same.symm
  have isReturn := IsStatement.bareReturn ⟨word, return_⟩ ⟨semicolon, semicolon_⟩
  have isNext := IsStatement.expr ⟨_, closes⟩ (IsExpr.unary ⟨op, unary⟩ isExpr)
  refine ⟨_, _, by simp, isReturn, isNext, ?_, ?_⟩
  · simpa using (used.before [_]).behind word
  · simpa [AstNode.names, namesOfOption] using (named.before [_]).behind word

private theorem condition_derives {tokens test closing rest : List Token} {diags diags' diags'' : List Diag}
    {uses : List Use} {opened closed : Token} {node : AstNode}
    (opening : Expected .oPren tokens test diags opened)
    (condition : ExprReads test closing diags' uses node)
    (closing : Expected .cPren closing rest diags'' closed) (silent : diags = [] ∧ diags' = [] ∧ diags'' = [])
    (proper : AllProper uses) : Derives IsCondition uses node.names tokens rest := by
  obtain ⟨closes, rfl⟩ := closing.found_of_silent silent.2.2
  obtain ⟨value, rfl, isExpr, used, named⟩ := condition.derives silent.2.1 proper
  obtain ⟨opens, rfl⟩ := opening.found_of_silent silent.1
  exact ⟨_ :: (value ++ [_]), by simp, .parens ⟨_, opens⟩ ⟨_, closes⟩ isExpr,
    (used.before _).behind _, (named.before _).behind _⟩

mutual

theorem StatementReads.derives {tokens rest : List Token} {diags : List Diag} {uses : List Use}
    {node : AstNode} (reads : StatementReads tokens rest diags uses node) (silent : diags = [])
    (proper : AllProper uses) : Derives IsStatement uses node.names tokens rest := by
  match reads with
  | .goto word name closing =>
      obtain ⟨closes, rfl⟩ := closing.found_of_silent silent
      have identifier := proper _ List.mem_cons_self
      have here := NamedIn.single ⟨name, identifier⟩ []
      exact ⟨[_, _, _], rfl, .goto word ⟨name, identifier⟩ ⟨_, closes⟩,
        (here.before [_]).behind word.1, (here.before [_]).behind word.1⟩
  | .lable name colon _ _ =>
      have here := NamedIn.single name [colon.1]
      exact ⟨[_, _], rfl, .lable name colon, here, here⟩
  | .return_ word read closing =>
      obtain ⟨first, second⟩ := List.append_eq_nil_iff.mp silent
      obtain ⟨taken, rfl, isExpr, used, named⟩ := read.derives first proper
      obtain ⟨closes, rfl⟩ := closing.found_of_silent second
      exact ⟨word.1 :: (taken ++ [_]), by simp, .return_ word ⟨_, closes⟩ isExpr,
        (used.before _).behind word.1, (named.before _).behind word.1⟩
  | .expr _ read closing =>
      obtain ⟨first, second⟩ := List.append_eq_nil_iff.mp silent
      obtain ⟨taken, rfl, isExpr, used, named⟩ := read.derives first proper
      obtain ⟨closes, rfl⟩ := closing.found_of_silent second
      exact ⟨taken ++ [_], by simp, .expr ⟨_, closes⟩ isExpr, used.before _, named.before _⟩
  | .scope _ _ block =>
      obtain ⟨taken, rfl, isBlock, used, named⟩ := block.derives silent proper
      exact ⟨taken, rfl, .scope isBlock, used, named⟩
  | .if_ read =>
      obtain ⟨taken, rfl, isIf, used, named⟩ := read.derives silent proper
      exact ⟨taken, rfl, .if_ isIf, used, named⟩
  | .while_ word _ opening condition closing block =>
      simp only [List.append_eq_nil_iff] at silent
      obtain ⟨first, second, third, inside⟩ := silent
      obtain ⟨properTest, properBody⟩ := allProper_append.mp proper
      obtain ⟨body, rfl, isBlock, used', named'⟩ := block.derives inside properBody
      obtain ⟨test, rfl, isCondition, used, named⟩ :=
        condition_derives opening condition closing ⟨first, second, third⟩ properTest
      refine ⟨word.1 :: (test ++ body), by simp, .while_ word isCondition isBlock, ?_, ?_⟩
      · simpa using (used.append used').behind word.1
      · exact (named.append named').behind word.1

theorem BlockReads.derives {tokens rest : List Token} {diags : List Diag} {uses : List Use}
    {nodes : List AstNode} (reads : BlockReads tokens rest diags uses nodes) (silent : diags = [])
    (proper : AllProper uses) : Derives IsBlock uses (namesOf nodes) tokens rest := by
  match reads with
  | .braces opening body closing =>
      obtain ⟨first, later⟩ := List.append_eq_nil_iff.mp silent
      obtain ⟨second, third⟩ := List.append_eq_nil_iff.mp later
      obtain ⟨taken, rfl, isBody, used, named⟩ := body.derives second proper
      obtain ⟨closes, rfl⟩ := closing.found_of_silent third
      obtain ⟨opens, rfl⟩ := opening.found_of_silent first
      exact ⟨_ :: (taken ++ [_]), by simp, .braces ⟨_, opens⟩ ⟨_, closes⟩ isBody,
        (used.before _).behind _, (named.before _).behind _⟩

theorem BodyReads.derives {tokens rest : List Token} {diags : List Diag} {uses : List Use}
    {nodes : List AstNode} (reads : BodyReads tokens rest diags uses nodes) (silent : diags = [])
    (proper : AllProper uses) : Derives IsBody uses (namesOf nodes) tokens rest := by
  match reads with
  | .nil _ => exact ⟨[], rfl, .nil, .nil, .nil⟩
  | .statement _ statement more =>
      obtain ⟨first, second⟩ := List.append_eq_nil_iff.mp silent
      obtain ⟨here, later⟩ := allProper_append.mp proper
      have behind := more.derives second later
      rw [Derives, usedNames_append, usedNames_bodyUses]
      by_cases bare : bareReturn tokens = true
      · obtain ⟨others, rfl, isBody, used', named'⟩ := behind
        obtain ⟨return_, next, rfl, isReturn, isNext, used, named⟩ := statement.derives_bare bare first here
        exact ⟨return_ ++ (next ++ others), by simp, .cons isReturn (.cons isNext isBody),
          by simpa using used.append used', by simpa [namesOf] using named.append named'⟩
      · rw [bodyUses_of_not_bare bare] at here
        obtain ⟨taken, rfl, isStatement, used, named⟩ := statement.derives first here
        obtain ⟨others, rfl, isBody, used', named'⟩ := behind
        exact ⟨taken ++ others, by simp, .cons isStatement isBody, used.append used', named.append named'⟩
  | .declaration declaration more =>
      obtain ⟨first, second⟩ := List.append_eq_nil_iff.mp silent
      obtain ⟨here, later⟩ := allProper_append.mp proper
      obtain ⟨others, rfl, isBody, used', named'⟩ := more.derives second later
      obtain ⟨taken, rfl, isStatement, used, named⟩ := declaration.derives first here
      exact ⟨taken ++ others, by simp, .cons isStatement isBody, by simpa using used.append used',
        by simpa using named.append named'⟩

theorem IfReads.derives {tokens rest : List Token} {diags : List Diag} {uses : List Use}
    {condition body : AstNode} {chain : Option AstNode}
    (reads : IfReads tokens rest diags uses condition body chain) (silent : diags = [])
    (proper : AllProper uses) :
    Derives IsIf uses (condition.names ++ (body.names ++ namesOfOption chain)) tokens rest := by
  match reads with
  | .if_ word _ opening condition closing block more =>
      simp only [List.append_eq_nil_iff] at silent
      obtain ⟨first, second, third, inside, behind⟩ := silent
      obtain ⟨properTest, properRest⟩ := allProper_append.mp proper
      obtain ⟨properBody, properChain⟩ := allProper_append.mp properRest
      have body := block.derives inside properBody
      obtain ⟨others, rfl, isChain, used'', named''⟩ := more.derives behind properChain
      obtain ⟨body, rfl, isBlock, used', named'⟩ := body
      obtain ⟨test, rfl, isCondition, used, named⟩ :=
        condition_derives opening condition closing ⟨first, second, third⟩ properTest
      refine ⟨word.1 :: (test ++ (body ++ others)), by simp, .if_ word isCondition isBlock isChain, ?_, ?_⟩
      · simpa using (used.append (used'.append used'')).behind word.1
      · exact (named.append (named'.append named'')).behind word.1

theorem ChainReads.derives {tokens rest : List Token} {diags : List Diag} {uses : List Use}
    {chain : Option AstNode} (reads : ChainReads tokens rest diags uses chain) (silent : diags = [])
    (proper : AllProper uses) : Derives IsChain uses (namesOfOption chain) tokens rest := by
  match reads with
  | .done _ => exact ⟨[], rfl, .done, .nil, .nil⟩
  | .elseIf word read =>
      obtain ⟨taken, rfl, isIf, used, named⟩ := read.derives silent proper
      exact ⟨word.1 :: taken, rfl, .elseIf word isIf, used.behind word.1, named.behind word.1⟩
  | .else_ word _ _ block =>
      obtain ⟨taken, rfl, isBlock, used, named⟩ := block.derives silent proper
      exact ⟨word.1 :: taken, rfl, .else_ word isBlock, used.behind word.1, named.behind word.1⟩

end

/-! Programs. -/

theorem ParamsRead.derives {tokens rest : List Token} {uses : List Use} {count : Nat}
    (reads : ParamsRead tokens rest uses count) (proper : AllProper uses) :
    (count = 0 ∧ tokens = rest ∧ uses = []) ∨
      (count ≠ 0 ∧ Derives (CommaSeparated IsIdentifier) uses [] tokens rest) := by
  induction reads with
  | nil => exact .inl ⟨rfl, rfl, rfl⟩
  | @cons name _ _ _ comma _ count _ _ comma_reads _ ih =>
      simp only [allProper_cons] at proper
      obtain ⟨identifier, separated, others⟩ := proper
      have here := NamedIn.single ⟨name, identifier⟩ []
      refine .inr ⟨Nat.succ_ne_zero _, ?_⟩
      obtain ⟨rfl, rfl, rfl⟩ | ⟨present, taken, rfl, areNames, used, -⟩ := ih others
      · cases comma_reads with
        | none => exact ⟨[name], rfl, .one (.name ⟨name, identifier⟩), here, .nil⟩
        | some comma => cases separated
      · cases comma_reads with
        | none => cases (bne_iff_ne.mpr present).symm.trans separated.symm
        | some comma =>
            exact ⟨_, rfl, .cons comma (.name ⟨name, identifier⟩) areNames,
              here.append (used.behind comma.1), .nil⟩

theorem GlobalSizeReads.derives {tokens rest : List Token} {diags : List Diag} {uses : List Use}
    {count : Nat} (reads : GlobalSizeReads tokens rest diags uses count) (silent : diags = [])
    (proper : AllProper uses) : ∃ taken, tokens = taken ++ rest ∧ usedNames uses = [] ∧
      ∀ name : Mark .identifier, IsVariable (name.1 :: taken) := by
  cases reads with
  | none => exact ⟨[], rfl, rfl, .scalar⟩
  | size opened size closing =>
      obtain ⟨closes, rfl⟩ := closing.found_of_silent silent
      have int := proper _ List.mem_cons_self
      exact ⟨[_, _, _], rfl, rfl, fun name => .vector name opened ⟨size, int⟩ ⟨_, closes⟩⟩

theorem GlobalsRead.derives {name : Token} {tokens rest : List Token} {diags : List Diag}
    {uses : List Use} {nodes : List AstNode} (reads : GlobalsRead name tokens rest diags uses nodes)
    (silent : diags = []) (proper : AllProper uses) :
    Derives (CommaSeparated IsVariable) uses (namesOf nodes) (name :: tokens) rest := by
  induction reads with
  | @last name _ _ _ _ _ _ size _ =>
      obtain ⟨identifier, inside⟩ := allProper_cons.mp proper
      obtain ⟨taken, rfl, none_, isVariable⟩ := size.derives silent inside
      have here := NamedIn.single ⟨name, identifier⟩ taken
      exact ⟨_, rfl, .one (isVariable ⟨name, identifier⟩), by simpa [Use.names, none_] using here, here⟩
  | @cons name comma _ _ _ _ _ _ _ _ _ _ _ size _ ih =>
      obtain ⟨first, second⟩ := List.append_eq_nil_iff.mp silent
      obtain ⟨identifier, others⟩ := allProper_cons.mp proper
      obtain ⟨inside, later⟩ := allProper_append.mp others
      obtain ⟨taken, rfl, none_, isVariable⟩ := size.derives first inside
      obtain ⟨more, same, areVariables, used, named⟩ := ih second later
      have here := NamedIn.single ⟨name, identifier⟩ taken
      refine ⟨_, by simp [same], .cons comma (isVariable ⟨name, identifier⟩) areVariables, ?_,
        here.append (named.behind comma.1)⟩
      simpa [Use.names, none_] using here.append (used.behind comma.1)

theorem TopReads.derives {tokens rest : List Token} {diags : List Diag} {uses : List Use}
    {nodes : List AstNode} (reads : TopReads tokens rest diags uses nodes) (silent : diags = [])
    (proper : AllProper uses) : Derives IsTop uses (namesOf nodes) tokens rest := by
  cases reads with
  | function name opened closed _ _ params body =>
      obtain ⟨-, others⟩ := allProper_cons.mp proper
      obtain ⟨properParams, properBody⟩ := allProper_append.mp others
      obtain ⟨taken, rfl, isStatement, used', named'⟩ := body.derives silent properBody
      obtain ⟨-, rfl, rfl⟩ | ⟨-, names, rfl, areNames, used, -⟩ := params.derives properParams
      · exact ⟨_, rfl, .function name opened closed (.inl rfl) isStatement,
          ((used'.behind closed.1).behind opened.1).cons name,
          (((named'.behind closed.1).behind opened.1).cons name).both .nil⟩
      · have whole := ((named'.behind closed.1).mono (List.subset_append_right names _)).behind opened.1
        refine ⟨_, by simp, .function name opened closed (.inr areNames) isStatement, ?_,
          (whole.cons name).both .nil⟩
        simpa [Use.names] using ((used.append (used'.behind closed.1)).behind opened.1).cons name
  | globals name _ globals closing =>
      obtain ⟨first, second⟩ := List.append_eq_nil_iff.mp silent
      obtain ⟨taken, same, areVariables, used, named⟩ := globals.derives first proper
      obtain ⟨closes, rfl⟩ := closing.found_of_silent second
      exact ⟨taken ++ [_], by simp [same], .globals ⟨_, closes⟩ areVariables, used.before _, named.before _⟩
  | extrn reads =>
      obtain ⟨taken, rfl, isExtern, used, named⟩ := reads.derives proper
      exact ⟨taken, rfl, .extrn isExtern, used, named⟩
  | unexpected => cases silent

/-- A silent reading of the whole text that takes nothing out of place. -/
theorem ProgramReads.derives {tokens : List Token} {diags : List Diag} {uses : List Use}
    {nodes : List AstNode} (reads : ProgramReads tokens diags uses nodes) (silent : diags = [])
    (proper : AllProper uses) :
    IsProgram tokens ∧ NamedIn tokens (usedNames uses) ∧ NamedIn tokens (namesOf nodes) := by
  induction reads with
  | nil => exact ⟨.nil, .nil, .nil⟩
  | cons top _ ih =>
      obtain ⟨first, second⟩ := List.append_eq_nil_iff.mp silent
      obtain ⟨here, later⟩ := allProper_append.mp proper
      obtain ⟨taken, rfl, isTop, used, named⟩ := top.derives first here
      obtain ⟨isProgram, used', named'⟩ := ih second later
      exact ⟨.cons isTop isProgram, by simpa using used.append used', by simpa using named.append named'⟩

end Trident
