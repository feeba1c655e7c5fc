import Trident.Parser.Derivation
import Trident.Parser.Placed

/-! What the parser reads without a diagnostic is a text of the grammar if and only if
everything it takes is where it belongs. -/

set_option autoImplicit false

namespace Trident

/-! Lists of names and variables. -/

theorem CommaReads.stays {tokens rest : List Token} {comma : Option (Mark .comma)}
    (reads : CommaReads tokens rest comma) (none_ : NextNot .comma tokens) :
    comma = Option.none ∧ rest = tokens := by
  cases reads with
  | none => exact ⟨rfl, rfl⟩
  | some mark => exact absurd mark.2 (none_ mark.1 rfl)

theorem CommaReads.passes {mark : Mark .comma} {tokens rest : List Token}
    {comma : Option (Mark .comma)} (reads : CommaReads (mark.1 :: tokens) rest comma) :
    comma.isSome ∧ rest = tokens := by
  obtain ⟨rfl, rfl⟩ := reads.unique (.some mark tokens)
  exact ⟨rfl, rfl⟩

private theorem names_begin {taken : List Token} (names : CommaSeparated IsIdentifier taken) (tokens : List Token) :
    NextIs .identifier (taken ++ tokens) := by
  cases names with
  | one name =>
      obtain ⟨name⟩ := name
      exact ⟨name.1, rfl, name.2⟩
  | cons _ name =>
      obtain ⟨name⟩ := name
      exact ⟨name.1, rfl, name.2⟩

theorem ExternsRead.ends_at {tokens rest taken more : List Token} {uses : List Use}
    {nodes : List AstNode} (reads : ExternsRead tokens rest uses nodes)
    (names : CommaSeparated IsIdentifier taken) (same : tokens = taken ++ more)
    (ends : NextIs .semicolon more) : rest = more ∧ AllProper uses := by
  induction reads generalizing taken with
  | last name comma stops =>
      cases names with
      | one name' =>
          obtain ⟨name'⟩ := name'
          obtain ⟨rfl, rfl⟩ := List.cons.inj same
          obtain ⟨rfl, rfl⟩ := comma.stays (ends.nextNot (by decide))
          exact ⟨rfl, by simp [Use.Proper, name'.2]⟩
      | cons mark name' others =>
          obtain ⟨name'⟩ := name'
          obtain ⟨rfl, rfl⟩ := List.cons.inj same
          obtain ⟨-, rfl⟩ := comma.passes
          exact absurd (stops.nextNot (by decide)) (names_begin others more).not_nextNot
  | cons name comma goesOn _ ih =>
      cases names with
      | one name' =>
          obtain ⟨name'⟩ := name'
          obtain ⟨rfl, rfl⟩ := List.cons.inj same
          obtain ⟨rfl, rfl⟩ := comma.stays (ends.nextNot (by decide))
          exact absurd goesOn ends.not_nextNot
      | cons mark name' others =>
          obtain ⟨name'⟩ := name'
          obtain ⟨rfl, rfl⟩ := List.cons.inj same
          obtain ⟨present, rfl⟩ := comma.passes
          obtain ⟨rfl, proper⟩ := ih others rfl
          exact ⟨rfl, by simp [Use.Proper, name'.2, present, proper]⟩

theorem ParamsRead.none_iff {tokens rest : List Token} {uses : List Use} {count : Nat}
    (reads : ParamsRead tokens rest uses count) : count = 0 ↔ NextIs .cPren tokens := by
  cases reads with
  | nil ends => exact iff_of_true rfl ends
  | cons name other =>
      refine iff_of_false (Nat.succ_ne_zero _) ?_
      rintro ⟨_, ⟨rfl⟩, same⟩
      exact other same

theorem ParamsRead.ends_at {tokens rest taken more : List Token} {uses : List Use} {count : Nat}
    (reads : ParamsRead tokens rest uses count) (names : taken = [] ∨ CommaSeparated IsIdentifier taken)
    (same : tokens = taken ++ more) (ends : NextIs .cPren more) : rest = more ∧ AllProper uses := by
  induction reads generalizing taken with
  | nil closes =>
      obtain rfl | names := names
      · exact ⟨same, by simp⟩
      · subst same
        exact absurd (closes.nextNot (by decide)) (names_begin names more).not_nextNot
  | cons name other _ comma reads ih =>
      obtain rfl | names := names
      · obtain ⟨_, member, closes⟩ := ends
        cases same
        cases member
        exact absurd closes other
      cases names with
      | one name' =>
          obtain ⟨name'⟩ := name'
          obtain ⟨rfl, rfl⟩ := List.cons.inj same
          obtain ⟨rfl, rfl⟩ := comma.stays (ends.nextNot (by decide))
          obtain ⟨rfl, proper⟩ := ih (.inl rfl) rfl
          exact ⟨rfl, by simp [Use.Proper, name'.2, proper, reads.none_iff.mpr ends]⟩
      | cons mark name' others =>
          obtain ⟨name'⟩ := name'
          obtain ⟨rfl, rfl⟩ := List.cons.inj same
          obtain ⟨present, rfl⟩ := comma.passes
          obtain ⟨rfl, proper⟩ := ih (.inr others) rfl
          have counted := reads.none_iff.not.mpr fun closes =>
            (names_begin others _).not_nextNot (closes.nextNot (by decide))
          exact ⟨rfl, by simp [Use.Proper, name'.2, present, proper, counted]⟩

theorem GlobalSizeReads.ends_at {name : Token} {tokens rest taken more : List Token}
    {diags : List Diag} {uses : List Use} {count : Nat} (reads : GlobalSizeReads tokens rest diags uses count)
    (silent : diags = []) (variable_ : IsVariable (name :: taken)) (same : tokens = taken ++ more)
    (none_ : NextNot .oBracket more) : name.kind = .identifier ∧ rest = more ∧ AllProper uses := by
  generalize whole : name :: taken = taken' at variable_
  cases variable_ with
  | scalar name' =>
      obtain ⟨rfl, rfl⟩ := List.cons.inj whole
      refine ⟨name'.2, ?_⟩
      cases reads with
      | none => exact ⟨same, by simp⟩
      | size opened =>
          subst same
          exact absurd opened.2 (none_ _ rfl)
  | vector name' opened' size' closed' =>
      obtain ⟨rfl, rfl⟩ := List.cons.inj whole
      refine ⟨name'.2, ?_⟩
      cases reads with
      | none unsized =>
          subst same
          exact absurd opened'.2 (unsized _ rfl)
      | size opened size closing =>
          obtain ⟨-, behind⟩ := List.cons.inj same
          obtain ⟨rfl, behind⟩ := List.cons.inj behind
          obtain ⟨-, rfl⟩ := closing.found_of_silent silent
          cases behind
          exact ⟨rfl, by simp [Use.Proper, size'.2]⟩

private theorem variable_begins {taken : List Token} (variable_ : IsVariable taken) :
    ∃ name tail, taken = name :: tail := by
  cases variable_ with
  | scalar name => exact ⟨_, _, rfl⟩
  | vector name => exact ⟨_, _, rfl⟩

theorem GlobalsRead.ends_at {name : Token} {tokens rest taken more : List Token} {diags : List Diag}
    {uses : List Use} {nodes : List AstNode} (reads : GlobalsRead name tokens rest diags uses nodes)
    (silent : diags = []) (declared : CommaSeparated IsVariable taken) (same : name :: tokens = taken ++ more)
    (ends : NextIs .semicolon more) : rest = more ∧ AllProper uses := by
  induction reads generalizing taken with
  | last _ size stops =>
      cases declared with
      | one first =>
          obtain ⟨name', tail, rfl⟩ := variable_begins first
          obtain ⟨rfl, behind⟩ := List.cons.inj same
          obtain ⟨identifier, rfl, proper⟩ := size.ends_at silent first behind (ends.nextNot (by decide))
          exact ⟨rfl, by simp [Use.Proper, identifier, proper]⟩
      | @cons mark _ listed first others =>
          obtain ⟨name', tail, rfl⟩ := variable_begins first
          rw [List.append_assoc] at same
          obtain ⟨rfl, behind⟩ := List.cons.inj same
          have unsized : NextNot .oBracket (mark.1 :: (listed ++ more)) := by simp [NextNot, mark.2]
          obtain ⟨-, rfl, -⟩ := size.ends_at silent first behind unsized
          exact absurd mark.2 (stops _ rfl)
  | cons mark next _ size _ ih =>
      obtain ⟨here, later⟩ := List.append_eq_nil_iff.mp silent
      cases declared with
      | one first =>
          obtain ⟨name', tail, rfl⟩ := variable_begins first
          obtain ⟨rfl, behind⟩ := List.cons.inj same
          obtain ⟨-, rfl, -⟩ := size.ends_at here first behind (ends.nextNot (by decide))
          exact absurd mark.2 ((ends.nextNot (by decide)) _ rfl)
      | @cons mark' _ listed first others =>
          obtain ⟨name', tail, rfl⟩ := variable_begins first
          rw [List.append_assoc] at same
          obtain ⟨rfl, behind⟩ := List.cons.inj same
          have unsized : NextNot .oBracket (mark'.1 :: (listed ++ more)) := by simp [NextNot, mark'.2]
          obtain ⟨identifier, ends', proper⟩ := size.ends_at here first behind unsized
          obtain ⟨rfl, proper'⟩ := ih later others (List.cons.inj ends').2
          exact ⟨rfl, by simp [Use.Proper, identifier, proper, proper']⟩

theorem AutoSizeReads.global {tokens rest : List Token} {diags : List Diag} {count : Nat}
    (reads : AutoSizeReads tokens rest diags count) (silent : diags = []) :
    ∃ uses, GlobalSizeReads tokens rest [] uses count := by
  cases reads with
  | none none_ => exact ⟨_, .none none_⟩
  | size opened size closing =>
      obtain ⟨first, second⟩ := List.append_eq_nil_iff.mp silent
      obtain ⟨-, rfl⟩ := size.found_of_silent first
      subst second
      exact ⟨_, .size opened _ closing⟩

/-- Without diagnostics the variables of an `auto` statement are read as globals are. -/
theorem AutosRead.globals {tokens rest : List Token} {diags : List Diag} {uses : List Use}
    {nodes : List AstNode} (reads : AutosRead tokens rest diags uses nodes) (silent : diags = []) :
    AllProper uses ∧ ∃ name tokens' uses' nodes', tokens = name :: tokens' ∧
      GlobalsRead name tokens' rest [] uses' nodes' := by
  induction reads with
  | last name named size stops =>
      obtain ⟨first, second⟩ := List.append_eq_nil_iff.mp silent
      obtain ⟨identifier, rfl⟩ := name.found_of_silent first
      obtain ⟨uses', size'⟩ := size.global second
      exact ⟨by simp [Use.Proper, identifier], _, _, _, _, rfl, .last named size' stops⟩
  | cons mark name named size _ ih =>
      obtain ⟨first, later⟩ := List.append_eq_nil_iff.mp silent
      obtain ⟨second, third⟩ := List.append_eq_nil_iff.mp later
      obtain ⟨identifier, rfl⟩ := name.found_of_silent first
      obtain ⟨uses', size'⟩ := size.global second
      obtain ⟨proper, next, tokens', uses'', nodes', rfl, others⟩ := ih third
      exact ⟨by simp [Use.Proper, identifier, proper], _, _, _, _, rfl, .cons mark next named size' others⟩

theorem AutosRead.ends_at {tokens rest taken more : List Token} {diags : List Diag}
    {uses : List Use} {nodes : List AstNode} (reads : AutosRead tokens rest diags uses nodes)
    (silent : diags = []) (declared : CommaSeparated IsVariable taken) (same : tokens = taken ++ more)
    (ends : NextIs .semicolon more) : rest = more ∧ AllProper uses := by
  obtain ⟨proper, name, tokens', uses', nodes', rfl, globals⟩ := reads.globals silent
  exact ⟨(globals.ends_at rfl declared same ends).1, proper⟩

/-! The first token of a statement tells what it is. -/

/-- The statements of the grammar that begin with the token. -/
def StatementWith (token : Token) (tail : List Token) : Prop :=
  match token.kind with
  | .oBrace => IsBlock (token :: tail)
  | .auto => ∃ (declared : List Token) (semicolon : Mark .semicolon),
      tail = declared ++ [semicolon.1] ∧ CommaSeparated IsVariable declared
  | .extrn => ∃ (names : List Token) (semicolon : Mark .semicolon),
      tail = names ++ [semicolon.1] ∧ CommaSeparated IsIdentifier names
  | .goto => ∃ (name : Mark .identifier) (semicolon : Mark .semicolon), tail = [name.1, semicolon.1]
  | .return_ => ∃ semicolon : Mark .semicolon,
      tail = [semicolon.1] ∨ ∃ value, tail = value ++ [semicolon.1] ∧ IsExpr value
  | .if_ => IsIf (token :: tail)
  | .while_ => ∃ condition block, tail = condition ++ block ∧ IsCondition condition ∧ IsBlock block
  | kind => (kind = .identifier ∧ ∃ colon : Mark .colon, tail = [colon.1]) ∨
      ∃ (value : List Token) (semicolon : Mark .semicolon),
        token :: tail = value ++ [semicolon.1] ∧ IsExpr value ∧ startsExpr kind = true

/-- A label, or an expression. -/
private theorem statementWith_iff {token : Token} {tail : List Token} (other : startsOther token.kind = false) :
    StatementWith token tail ↔ (token.kind = .identifier ∧ ∃ colon : Mark .colon, tail = [colon.1]) ∨
      ∃ (value : List Token) (semicolon : Mark .semicolon),
        token :: tail = value ++ [semicolon.1] ∧ IsExpr value ∧ startsExpr token.kind = true := by
  unfold StatementWith
  split
  next kind => simp [kind, startsOther] at other
  next kind => simp [kind, startsOther] at other
  next kind => simp [kind, startsOther] at other
  next kind => simp [kind, startsOther] at other
  next kind => simp [kind, startsOther] at other
  next kind => simp [kind, startsOther] at other
  next kind => simp [kind, startsOther] at other
  next => exact Iff.rfl

private theorem startsOther_of_startsExpr {kind : TokenKind} (starts : startsExpr kind = true) :
    startsOther kind = false := by
  revert starts
  cases kind <;> decide

theorem IsStatement.of_cons {token : Token} {tail : List Token} (stmt : IsStatement (token :: tail)) :
    StatementWith token tail := by
  generalize whole : token :: tail = tokens at stmt
  cases stmt with
  | scope block =>
      obtain ⟨opened, closed, body⟩ := block
      obtain ⟨rfl, rfl⟩ := List.cons.inj whole
      simp only [StatementWith, opened.2]
      exact .braces opened closed body
  | auto word semicolon declared =>
      obtain ⟨rfl, rfl⟩ := List.cons.inj whole
      simp only [StatementWith, word.2]
      exact ⟨_, semicolon, rfl, declared⟩
  | extrn declares =>
      obtain ⟨word, semicolon, names⟩ := declares
      obtain ⟨rfl, rfl⟩ := List.cons.inj whole
      simp only [StatementWith, word.2]
      exact ⟨_, semicolon, rfl, names⟩
  | goto word name semicolon =>
      obtain ⟨rfl, rfl⟩ := List.cons.inj whole
      simp only [StatementWith, word.2]
      exact ⟨name, semicolon, rfl⟩
  | lable name colon =>
      obtain ⟨rfl, rfl⟩ := List.cons.inj whole
      simp only [StatementWith, name.2]
      exact .inl ⟨trivial, colon, rfl⟩
  | bareReturn word semicolon =>
      obtain ⟨rfl, rfl⟩ := List.cons.inj whole
      simp only [StatementWith, word.2]
      exact ⟨semicolon, .inl rfl⟩
  | return_ word semicolon expr =>
      obtain ⟨rfl, rfl⟩ := List.cons.inj whole
      simp only [StatementWith, word.2]
      exact ⟨semicolon, .inr ⟨_, rfl, expr⟩⟩
  | if_ isIf =>
      obtain ⟨word, condition, block, chain⟩ := isIf
      obtain ⟨rfl, rfl⟩ := List.cons.inj whole
      simp only [StatementWith, word.2]
      exact .if_ word condition block chain
  | while_ word condition block =>
      obtain ⟨rfl, rfl⟩ := List.cons.inj whole
      simp only [StatementWith, word.2]
      exact ⟨_, _, rfl, condition, block⟩
  | expr semicolon expr =>
      obtain ⟨token', more, rfl, starts⟩ := expr.begins
      obtain ⟨rfl, rfl⟩ := List.cons.inj whole
      exact (statementWith_iff (startsOther_of_startsExpr starts)).mpr
        (.inr ⟨_, semicolon, rfl, expr, starts⟩)

/-- The kinds of the tokens that a statement begins with. -/
def startsStatement (kind : TokenKind) : Bool :=
  startsExpr kind || (startsOther kind && kind != .comma)

theorem IsStatement.begins {taken : List Token} (stmt : IsStatement taken) :
    ∃ token tail, taken = token :: tail ∧ startsStatement token.kind = true := by
  cases stmt with
  | scope block =>
      obtain ⟨opened⟩ := block
      exact ⟨_, _, rfl, by rw [opened.2]; rfl⟩
  | auto word => exact ⟨_, _, rfl, by rw [word.2]; rfl⟩
  | extrn declares =>
      obtain ⟨word⟩ := declares
      exact ⟨_, _, rfl, by rw [word.2]; rfl⟩
  | goto word => exact ⟨_, _, rfl, by rw [word.2]; rfl⟩
  | lable name => exact ⟨_, _, rfl, by rw [name.2]; rfl⟩
  | bareReturn word => exact ⟨_, _, rfl, by rw [word.2]; rfl⟩
  | return_ word => exact ⟨_, _, rfl, by rw [word.2]; rfl⟩
  | if_ isIf =>
      obtain ⟨word⟩ := isIf
      exact ⟨_, _, rfl, by rw [word.2]; rfl⟩
  | while_ word => exact ⟨_, _, rfl, by rw [word.2]; rfl⟩
  | expr _ expr =>
      obtain ⟨token, more, rfl, starts⟩ := expr.begins
      exact ⟨token, _, rfl, by rw [startsStatement, starts, Bool.true_or]⟩

theorem IsStatement.split {word : Token} {tokens taken more : List Token} (stmt : IsStatement taken)
    (same : word :: tokens = taken ++ more) :
    ∃ tail, taken = word :: tail ∧ tokens = tail ++ more ∧ StatementWith word tail := by
  obtain ⟨token, tail, rfl, -⟩ := stmt.begins
  obtain ⟨rfl, rfl⟩ := List.cons.inj same
  exact ⟨tail, rfl, rfl, stmt.of_cons⟩

/-- A statement can end here. -/
def StatementEnds (more : List Token) : Prop :=
  ∀ next ∈ more.head?, startsStatement next.kind = true ∨ next.kind = .cBrace

theorem StatementEnds.nextNot {more : List Token} (follows : StatementEnds more) {kind : TokenKind}
    (never : startsStatement kind = false) (other : kind ≠ .cBrace) : NextNot kind more := by
  rintro next member rfl
  obtain starts | closes := follows next member
  · rw [never] at starts
    cases starts
  · exact other closes

theorem DeclarationReads.ends_at {tokens rest taken more : List Token} {diags : List Diag}
    {uses : List Use} {nodes : List AstNode} (reads : DeclarationReads tokens rest diags uses nodes)
    (silent : diags = []) (stmt : IsStatement taken) (same : tokens = taken ++ more) :
    rest = more ∧ AllProper uses := by
  cases reads with
  | auto word autos closing =>
      obtain ⟨first, second⟩ := List.append_eq_nil_iff.mp silent
      obtain ⟨tail, -, rfl, declares⟩ := stmt.split same
      simp only [StatementWith, word.2] at declares
      obtain ⟨declared, semicolon, rfl, areVariables⟩ := declares
      obtain ⟨rfl, proper⟩ := autos.ends_at first areVariables (List.append_assoc ..)
        ⟨semicolon.1, rfl, semicolon.2⟩
      obtain ⟨-, ends⟩ := closing.found_of_silent second
      exact ⟨(List.cons.inj ends).2.symm, proper⟩
  | extrn reads =>
      obtain ⟨word, closed, names⟩ := reads
      obtain ⟨tail, -, rfl, declares⟩ := stmt.split same
      simp only [StatementWith, word.2] at declares
      obtain ⟨listed, semicolon, rfl, areNames⟩ := declares
      obtain ⟨ends, proper⟩ := names.ends_at areNames (List.append_assoc ..)
        ⟨semicolon.1, rfl, semicolon.2⟩
      exact ⟨(List.cons.inj ends).2, proper⟩
  | comma mark =>
      obtain ⟨_, _, rfl, starts⟩ := stmt.begins
      obtain ⟨rfl, -⟩ := List.cons.inj same
      rw [mark.2] at starts
      cases starts

private theorem condition_ends_at {tokens test closing rest taken more : List Token}
    {diags diags' diags'' : List Diag} {uses : List Use} {opened closed : Token} {node : AstNode}
    (opening : Expected .oPren tokens test diags opened)
    (condition : ExprReads test closing diags' uses node)
    (closing : Expected .cPren closing rest diags'' closed) (silent : diags = [] ∧ diags' = [] ∧ diags'' = [])
    (isCondition : IsCondition taken) (same : tokens = taken ++ more) : rest = more ∧ AllProper uses := by
  obtain @⟨opened', closed', value, isExpr⟩ := isCondition
  obtain ⟨-, rfl⟩ := opening.found_of_silent silent.1
  have inside : test = value ++ closed'.1 :: more := by simpa using (List.cons.inj same).2
  obtain ⟨rfl, proper⟩ := condition.ends_at silent.2.1 isExpr inside (stopsAt_closer rfl closed')
  obtain ⟨-, ends⟩ := closing.found_of_silent silent.2.2
  exact ⟨(List.cons.inj ends).2.symm, proper⟩

/-! Where a text of the grammar ends, the reading of it ends. -/

/-- Where a semicolon stands for an operand. -/
theorem ExprScan.behind_semicolon {semicolon : Token} {tokens rest : List Token} {uses : List Use}
    (scan : ExprScan (semicolon :: tokens) rest uses) (semicolon_ : semicolon.kind = .semicolon) :
    rest = tokens ∨
      ∃ next more, tokens = next :: more ∧ (next.kind = .oBracket ∨ isBinaryOp next.kind = true) := by
  generalize whole : semicolon :: tokens = tokens' at scan
  cases scan with
  | atom token _ tail =>
      obtain ⟨rfl, rfl⟩ := List.cons.inj whole
      cases tail with
      | stop => exact .inl rfl
      | binary op => exact .inr ⟨op.1, _, rfl, .inr op.2⟩
  | index token opened =>
      obtain ⟨rfl, rfl⟩ := List.cons.inj whole
      exact .inr ⟨opened.1, _, rfl, .inl opened.2⟩
  | call name => grind
  | unary op => grind [isUnaryOp]
  | paren opened => grind

private theorem isUnaryOp_of_starts {kind : TokenKind} (starts : startsStatement kind = true)
    (binary : isBinaryOp kind = true) : isUnaryOp kind = true := by
  revert starts binary
  cases kind <;> decide

/-- Where a statement ends before `return` has read its operand, the operand is a semicolon
and an operator follows. -/
private theorem return_ends_at {word : Mark .return_} {value closing rest tail more : List Token}
    {diags diags' : List Diag} {uses : List Use} {semicolon : Token} {node : AstNode}
    (read : ExprReads value closing diags uses node) (closer : Expected .semicolon closing rest diags' semicolon)
    (silent : diags = [] ∧ diags' = []) (stmt : StatementWith word.1 tail) (same : value = tail ++ more)
    (follows : StatementEnds more) : (rest = more ∧ AllProper uses) ∨
      (bareReturn (word.1 :: value) = true ∧ more = (word.1 :: value).drop 2) := by
  simp only [StatementWith, word.2] at stmt
  obtain ⟨found, ends⟩ := closer.found_of_silent silent.2
  obtain ⟨semicolon', rfl | ⟨expr, rfl, isExpr⟩⟩ := stmt
  · subst same
    rw [silent.1] at read
    obtain rfl | ⟨next, behind, rfl, opener | binary⟩ := read.scan.behind_semicolon semicolon'.2
    · subst ends
      exact absurd found (follows.nextNot rfl (by decide) _ rfl)
    · exact absurd opener (follows.nextNot rfl (by decide) _ rfl)
    · obtain starts | closes := follows next rfl
      · have unary := isUnaryOp_of_starts starts binary
        exact .inr ⟨by simp [bareReturn, word.2, semicolon'.2, unary], rfl⟩
      · rw [closes] at binary
        cases binary
  · have inside : value = expr ++ semicolon'.1 :: more := by simpa using same
    obtain ⟨rfl, proper⟩ := read.ends_at silent.1 isExpr inside (stopsAt_closer rfl semicolon')
    exact .inl ⟨(List.cons.inj ends).2.symm, proper⟩

theorem ExprScan.not_label {name colon : Token} {tokens rest : List Token} {uses : List Use}
    (scan : ExprScan (name :: colon :: tokens) rest uses) (identifier : name.kind = .identifier) :
    colon.kind ≠ .colon := by
  generalize whole : name :: colon :: tokens = tokens' at scan
  intro labels
  cases scan with
  | atom token _ tail =>
      obtain ⟨rfl, rfl⟩ := List.cons.inj whole
      exact tail.endsOperand (by rw [labels]; rfl)
  | index token opened => grind
  | call name opened => grind
  | unary op => grind [isUnaryOp]
  | paren opened => grind

private theorem lable_ends_at {name : Mark .identifier} {colon : Mark .colon} {rest taken more : List Token}
    (stmt : IsStatement taken) (same : name.1 :: colon.1 :: rest = taken ++ more) : rest = more := by
  obtain ⟨tail, -, behind, labels⟩ := stmt.split same
  obtain ⟨-, colon', rfl⟩ | ⟨value, semicolon, whole, isExpr, -⟩ :=
    (statementWith_iff (by rw [name.2]; rfl)).mp labels
  · exact (List.cons.inj behind).2
  · obtain ⟨uses, scan, -⟩ := isExpr.scan (.at_closer rfl semicolon more)
    have text : name.1 :: colon.1 :: rest = value ++ semicolon.1 :: more := by
      rw [behind, ← List.cons_append, whole, List.append_assoc]
      rfl
    rw [← text] at scan
    exact absurd colon.2 (scan.not_label name.2)

private theorem expr_ends_at {value closing rest taken more : List Token} {diags diags' : List Diag}
    {uses : List Use} {semicolon : Token} {node : AstNode} (ahead : ExprAhead value)
    (read : ExprReads value closing diags uses node) (closer : Expected .semicolon closing rest diags' semicolon)
    (silent : diags = [] ∧ diags' = []) (stmt : IsStatement taken) (same : value = taken ++ more) :
    rest = more ∧ AllProper uses := by
  obtain ⟨other, noColon⟩ := ahead
  obtain ⟨tail, -, rfl, begins⟩ := stmt.split same
  obtain ⟨identifier, colon, rfl⟩ | ⟨expr, semicolon', whole, isExpr, -⟩ := (statementWith_iff other).mp begins
  · exact absurd colon.2 (noColon identifier _ rfl)
  · rw [← List.cons_append, whole, List.append_assoc] at read
    obtain ⟨rfl, proper⟩ := read.ends_at silent.1 isExpr rfl (stopsAt_closer rfl semicolon')
    obtain ⟨-, ends⟩ := closer.found_of_silent silent.2
    exact ⟨(List.cons.inj ends).2.symm, proper⟩

theorem AllProper.bodyUses {tokens : List Token} {uses : List Use} (proper : AllProper uses) :
    AllProper (bodyUses tokens uses) := by
  unfold Trident.bodyUses
  split
  next =>
    split
    · exact (allProper_cons.mp proper).2
    · exact proper
  next => exact proper

/-- The two statements of the grammar that are one for the parser. -/
theorem StatementReads.ends_at_bare {tokens rest value more : List Token} {diags : List Diag}
    {uses : List Use} {node : AstNode} {semicolon : Mark .semicolon}
    (reads : StatementReads tokens rest diags uses node) (silent : diags = [])
    (bare : bareReturn tokens = true) (isExpr : IsExpr value)
    (same : tokens.drop 2 = value ++ semicolon.1 :: more) :
    rest = more ∧ AllProper (bodyUses tokens uses) := by
  obtain ⟨word, semicolon', op, tail, rfl, return_, semicolon_, unary⟩ := of_bareReturn bare
  obtain ⟨closing, diags', diags'', _, expr, rfl, read, closer, -⟩ := reads.of_return return_
  obtain ⟨rfl, second⟩ := List.append_eq_nil_iff.mp silent
  obtain ⟨uses', rfl, scan⟩ := read.scan.of_semicolon semicolon_ unary
  obtain ⟨uses'', scan', proper⟩ := isExpr.scan (.at_closer rfl semicolon more)
  obtain ⟨rfl, rfl⟩ := (ExprScan.unary ⟨op, unary⟩ scan).unique scan' same
  obtain ⟨-, ends⟩ := closer.found_of_silent second
  refine ⟨(List.cons.inj ends).2.symm, ?_⟩
  simpa [bodyUses, bare] using proper

theorem StatementReads.ends_at_second {tokens rest taken more : List Token} {diags : List Diag}
    {uses : List Use} {node : AstNode} (reads : StatementReads tokens rest diags uses node)
    (silent : diags = []) (bare : bareReturn tokens = true) (isBody : IsBody taken)
    (behind : taken ++ more = tokens.drop 2) (ends : NextIs .cBrace more) :
    ∃ others, IsBody others ∧ rest = others ++ more ∧ AllProper (bodyUses tokens uses) := by
  obtain ⟨word, semicolon, op, tail, whole, -, -, unary⟩ := of_bareReturn bare
  have begins : op :: tail = taken ++ more := by rw [behind, whole]; rfl
  cases isBody with
  | nil =>
      obtain ⟨_, member, closes⟩ := ends
      cases begins
      cases member
      rw [closes] at unary
      cases unary
  | @cons _ others second isBody =>
      rw [List.append_assoc] at begins behind
      obtain ⟨tail', rfl, -, isSecond⟩ := second.split begins
      have starts : startsExpr op.kind = true := by simp [startsExpr, unary]
      obtain ⟨identifier, -⟩ | ⟨value, semicolon', same, isExpr, -⟩ :=
        (statementWith_iff (startsOther_of_startsExpr starts)).mp isSecond
      · rw [identifier] at unary
        cases unary
      · rw [same, List.append_assoc] at behind
        obtain ⟨here, proper⟩ := reads.ends_at_bare silent bare isExpr behind.symm
        exact ⟨others, isBody, here, proper⟩

theorem DeclarationReads.goesOn {tokens rest : List Token} {diags : List Diag} {uses : List Use}
    {nodes : List AstNode} (reads : DeclarationReads tokens rest diags uses nodes) :
    NextNot .cBrace tokens := by
  cases reads with
  | auto word => simp [NextNot, word.2]
  | extrn reads =>
      obtain ⟨word⟩ := reads
      simp [NextNot, word.2]
  | comma mark => simp [NextNot, mark.2]

theorem IfReads.begins {tokens rest : List Token} {diags : List Diag} {uses : List Use}
    {condition body : AstNode} {chain : Option AstNode}
    (reads : IfReads tokens rest diags uses condition body chain) :
    ∃ (word : Mark .if_) (behind : List Token), tokens = word.1 :: behind := by
  obtain ⟨word⟩ := reads
  exact ⟨word, _, rfl⟩

theorem IsBody.follows {taken more : List Token} (isBody : IsBody taken) (ends : NextIs .cBrace more) :
    StatementEnds (taken ++ more) := by
  cases isBody with
  | nil =>
      obtain ⟨token, member, closes⟩ := ends
      intro next member'
      cases Option.mem_unique member member'
      exact .inr closes
  | cons stmt =>
      obtain ⟨token, tail, rfl, starts⟩ := stmt.begins
      rintro _ ⟨rfl⟩
      exact .inl starts

mutual

theorem StatementReads.ends_at {tokens rest taken more : List Token} {diags : List Diag}
    {uses : List Use} {node : AstNode} (reads : StatementReads tokens rest diags uses node)
    (silent : diags = []) (stmt : IsStatement taken) (same : tokens = taken ++ more)
    (follows : StatementEnds more) : (rest = more ∧ AllProper uses) ∨
      (bareReturn tokens = true ∧ more = tokens.drop 2) := by
  match reads with
  | .goto word name closing =>
      obtain ⟨tail, -, behind, jumps⟩ := stmt.split same
      simp only [StatementWith, word.2] at jumps
      obtain ⟨name', semicolon, rfl⟩ := jumps
      obtain ⟨named, later⟩ := List.cons.inj behind
      obtain ⟨-, ends⟩ := closing.found_of_silent silent
      exact .inl ⟨(List.cons.inj (ends.symm.trans later)).2, by simp [Use.Proper, named, name'.2]⟩
  | .lable name colon _ _ => exact .inl ⟨lable_ends_at stmt same, by simp [Use.Proper, name.2]⟩
  | .return_ word read closing =>
      obtain ⟨tail, -, behind, returns⟩ := stmt.split same
      exact return_ends_at read closing (List.append_eq_nil_iff.mp silent) returns behind follows
  | .expr ahead read closing =>
      exact .inl (expr_ends_at ahead read closing (List.append_eq_nil_iff.mp silent) stmt same)
  | .scope _ opens block =>
      obtain ⟨token, tail, rfl, -⟩ := stmt.begins
      have begins := stmt.of_cons
      obtain ⟨_, member, opened⟩ := opens
      rw [same] at member
      cases member
      simp only [StatementWith, opened] at begins
      exact .inl (block.ends_at silent begins same)
  | .if_ read =>
      obtain ⟨word, behind, whole⟩ := read.begins
      obtain ⟨tail, rfl, -, begins⟩ := stmt.split (whole.symm.trans same)
      simp only [StatementWith, word.2] at begins
      exact .inl (read.ends_at silent begins same follows)
  | .while_ word _ opening condition closing block =>
      simp only [List.append_eq_nil_iff] at silent
      obtain ⟨first, second, third, inside⟩ := silent
      obtain ⟨tail, -, behind, loops⟩ := stmt.split same
      simp only [StatementWith, word.2] at loops
      obtain ⟨test, body, rfl, isCondition, isBlock⟩ := loops
      obtain ⟨here, proper⟩ := condition_ends_at opening condition closing ⟨first, second, third⟩
        isCondition (behind.trans (List.append_assoc ..))
      obtain ⟨ends, proper'⟩ := block.ends_at inside isBlock here
      exact .inl ⟨ends, allProper_append.mpr ⟨proper, proper'⟩⟩

theorem BlockReads.ends_at {tokens rest taken more : List Token} {diags : List Diag}
    {uses : List Use} {nodes : List AstNode} (reads : BlockReads tokens rest diags uses nodes)
    (silent : diags = []) (isBlock : IsBlock taken) (same : tokens = taken ++ more) :
    rest = more ∧ AllProper uses := by
  match reads with
  | .braces opening body closing =>
      simp only [List.append_eq_nil_iff] at silent
      obtain ⟨first, second, third⟩ := silent
      obtain ⟨opened', closed', isBody⟩ := isBlock
      obtain ⟨-, opens⟩ := opening.found_of_silent first
      have inside := (List.cons.inj (opens.symm.trans same)).2
      obtain ⟨here, proper⟩ := body.ends_at second isBody (inside.trans (List.append_assoc ..))
        ⟨closed'.1, rfl, closed'.2⟩
      obtain ⟨-, closes⟩ := closing.found_of_silent third
      exact ⟨(List.cons.inj (closes.symm.trans here)).2, proper⟩

theorem BodyReads.ends_at {tokens rest taken more : List Token} {diags : List Diag}
    {uses : List Use} {nodes : List AstNode} (reads : BodyReads tokens rest diags uses nodes)
    (silent : diags = []) (isBody : IsBody taken) (same : tokens = taken ++ more)
    (ends : NextIs .cBrace more) : rest = more ∧ AllProper uses := by
  match reads with
  | .nil stops =>
      cases isBody with
      | nil => exact ⟨same, by simp⟩
      | cons stmt =>
          obtain ⟨token, tail, rfl, starts⟩ := stmt.begins
          rw [stops token (by rw [same]; rfl)] at starts
          cases starts
  | .statement goesOn statement others =>
      obtain ⟨first, second⟩ := List.append_eq_nil_iff.mp silent
      cases isBody with
      | nil =>
          subst same
          exact absurd goesOn ends.not_nextNot
      | cons stmt isBody =>
          rw [List.append_assoc] at same
          obtain ⟨here, proper⟩ | ⟨bare, behind⟩ := statement.ends_at first stmt same (isBody.follows ends)
          · obtain ⟨rfl, proper'⟩ := others.ends_at second isBody here ends
            exact ⟨rfl, allProper_append.mpr ⟨proper.bodyUses, proper'⟩⟩
          · obtain ⟨_, isBody, here, proper⟩ := statement.ends_at_second first bare isBody behind ends
            obtain ⟨rfl, proper'⟩ := others.ends_at second isBody here ends
            exact ⟨rfl, allProper_append.mpr ⟨proper, proper'⟩⟩
  | .declaration declaration others =>
      obtain ⟨first, second⟩ := List.append_eq_nil_iff.mp silent
      cases isBody with
      | nil =>
          subst same
          exact absurd declaration.goesOn ends.not_nextNot
      | cons stmt isBody =>
          obtain ⟨here, proper⟩ := declaration.ends_at first stmt (same.trans (List.append_assoc ..))
          obtain ⟨rfl, proper'⟩ := others.ends_at second isBody here ends
          exact ⟨rfl, allProper_append.mpr ⟨proper, proper'⟩⟩

theorem IfReads.ends_at {tokens rest taken more : List Token} {diags : List Diag} {uses : List Use}
    {condition body : AstNode} {chain : Option AstNode}
    (reads : IfReads tokens rest diags uses condition body chain) (silent : diags = [])
    (isIf : IsIf taken) (same : tokens = taken ++ more) (follows : StatementEnds more) :
    rest = more ∧ AllProper uses := by
  match reads with
  | .if_ word _ opening condition closing block others =>
      simp only [List.append_eq_nil_iff] at silent
      obtain ⟨first, second, third, inside, behind⟩ := silent
      obtain ⟨word', isCondition, isBlock, isChain⟩ := isIf
      have whole := (List.cons.inj same).2
      obtain ⟨here, proper⟩ := condition_ends_at opening condition closing ⟨first, second, third⟩
        isCondition (whole.trans (List.append_assoc ..))
      obtain ⟨there, proper'⟩ := block.ends_at inside isBlock (here.trans (List.append_assoc ..))
      obtain ⟨ends, proper''⟩ := others.ends_at behind isChain there follows
      exact ⟨ends, by simp [proper, proper', proper'']⟩

theorem ChainReads.ends_at {tokens rest taken more : List Token} {diags : List Diag} {uses : List Use}
    {chain : Option AstNode} (reads : ChainReads tokens rest diags uses chain) (silent : diags = [])
    (isChain : IsChain taken) (same : tokens = taken ++ more) (follows : StatementEnds more) :
    rest = more ∧ AllProper uses := by
  match reads with
  | .done none_ =>
      cases isChain with
      | done => exact ⟨same, by simp⟩
      | elseIf word' => exact absurd word'.2 (none_ _ (by rw [same]; rfl))
      | else_ word' => exact absurd word'.2 (none_ _ (by rw [same]; rfl))
  | .elseIf word read =>
      cases isChain with
      | done =>
          cases same
          exact absurd word.2 (follows.nextNot rfl (by decide) _ rfl)
      | elseIf word' isIf => exact read.ends_at silent isIf (List.cons.inj same).2 follows
      | else_ word' isBlock =>
          obtain ⟨word'', behind, rfl⟩ := read.begins
          obtain ⟨opened⟩ := isBlock
          grind
  | .else_ word _ other block =>
      cases isChain with
      | done =>
          cases same
          exact absurd word.2 (follows.nextNot rfl (by decide) _ rfl)
      | elseIf word' isIf =>
          obtain ⟨word''⟩ := isIf
          exact absurd word''.2 (other _ (by rw [(List.cons.inj same).2]; rfl))
      | else_ word' isBlock => exact block.ends_at silent isBlock (List.cons.inj same).2

end

/-! Programs. -/

private theorem declared_begins {taken : List Token} (declared : CommaSeparated IsVariable taken) :
    ∃ (name : Mark .identifier) (tail : List Token), taken = name.1 :: tail := by
  cases declared with
  | one first =>
      cases first with
      | scalar name => exact ⟨name, _, rfl⟩
      | vector name => exact ⟨name, _, rfl⟩
  | cons comma first =>
      cases first with
      | scalar name => exact ⟨name, _, rfl⟩
      | vector name => exact ⟨name, _, rfl⟩

/-- No parenthesis follows the first name. -/
private theorem declared_no_oPren {name next : Token} {tokens taken more : List Token} {semicolon : Mark .semicolon}
    (declared : CommaSeparated IsVariable taken)
    (same : name :: next :: tokens = taken ++ semicolon.1 :: more) :
    next.kind ≠ .oPren := by
  cases declared with
  | one first =>
      cases first with
      | scalar name' => grind
      | vector name' opened => grind
  | cons comma first =>
      cases first with
      | scalar name' => grind
      | vector name' opened => grind

theorem IsTop.begins {taken : List Token} (top : IsTop taken) :
    ∃ token tail, taken = token :: tail ∧ (token.kind = .identifier ∨ token.kind = .extrn) := by
  cases top with
  | function name => exact ⟨_, _, rfl, .inl name.2⟩
  | globals semicolon declared =>
      obtain ⟨name, tail, rfl⟩ := declared_begins declared
      exact ⟨_, _, rfl, .inl name.2⟩
  | extrn declares =>
      obtain ⟨word⟩ := declares
      exact ⟨_, _, rfl, .inr word.2⟩

theorem IsProgram.begins {token : Token} {tail : List Token} (program : IsProgram (token :: tail)) :
    token.kind = .identifier ∨ token.kind = .extrn := by
  generalize whole : token :: tail = tokens at program
  cases program with
  | nil => cases whole
  | cons top =>
      obtain ⟨token', tail', rfl, begins⟩ := top.begins
      obtain ⟨rfl, -⟩ := List.cons.inj whole
      exact begins

/-- The body of a function, in front of the rest of the program. -/
theorem StatementReads.ends_at_program {tokens rest taken more : List Token} {diags : List Diag}
    {uses : List Use} {node : AstNode} (reads : StatementReads tokens rest diags uses node)
    (silent : diags = []) (stmt : IsStatement taken) (same : tokens = taken ++ more)
    (program : IsProgram more) : rest = more ∧ AllProper uses := by
  have follows : StatementEnds more := by
    rintro next member
    cases more with
    | nil => cases member
    | cons token tail =>
        cases member
        obtain identifier | word := program.begins
        · exact .inl (by rw [identifier]; rfl)
        · exact .inl (by rw [word]; rfl)
  obtain done | ⟨bare, behind⟩ := reads.ends_at silent stmt same follows
  · exact done
  · obtain ⟨word, semicolon, op, tail, rfl, -, -, unary⟩ := of_bareReturn bare
    cases behind
    obtain identifier | word := program.begins
    · rw [identifier] at unary
      cases unary
    · rw [word] at unary
      cases unary

theorem TopReads.ends_at {tokens rest taken more : List Token} {diags : List Diag} {uses : List Use}
    {nodes : List AstNode} (reads : TopReads tokens rest diags uses nodes) (silent : diags = [])
    (top : IsTop taken) (same : tokens = taken ++ more) (program : IsProgram more) :
    rest = more ∧ AllProper uses := by
  cases reads with
  | function name opened closed _ _ params body =>
      cases top with
      | function name' opened' closed' names stmt =>
          have behind := (List.cons.inj (List.cons.inj same).2).2.trans (List.append_assoc ..)
          obtain ⟨ends, proper⟩ := params.ends_at names behind ⟨closed'.1, rfl, closed'.2⟩
          obtain ⟨rfl, proper'⟩ := body.ends_at_program silent stmt (List.cons.inj ends).2 program
          exact ⟨rfl, by simp [Use.Proper, name.2, proper, proper']⟩
      | globals semicolon declared =>
          exact absurd opened.2 (declared_no_oPren declared (same.trans (List.append_assoc ..)))
      | extrn declares =>
          obtain ⟨word⟩ := declares
          grind
  | globals name plain globals closing =>
      obtain ⟨first, second⟩ := List.append_eq_nil_iff.mp silent
      cases top with
      | function name' opened' =>
          obtain rfl := (List.cons.inj same).2
          exact absurd opened'.2 (plain _ rfl)
      | globals semicolon declared =>
          obtain ⟨rfl, proper⟩ := globals.ends_at first declared (same.trans (List.append_assoc ..))
            ⟨semicolon.1, rfl, semicolon.2⟩
          obtain ⟨-, ends⟩ := closing.found_of_silent second
          exact ⟨(List.cons.inj ends).2.symm, proper⟩
      | extrn declares =>
          obtain ⟨word⟩ := declares
          grind
  | extrn reads =>
      obtain ⟨word, closed, names⟩ := reads
      cases top with
      | function name => grind
      | globals semicolon declared =>
          obtain ⟨name, tail, rfl⟩ := declared_begins declared
          grind
      | extrn declares =>
          obtain ⟨word', semicolon, areNames⟩ := declares
          have behind := (List.cons.inj same).2.trans (List.append_assoc ..)
          obtain ⟨ends, proper⟩ := names.ends_at areNames behind ⟨semicolon.1, rfl, semicolon.2⟩
          exact ⟨(List.cons.inj ends).2, proper⟩
  | unexpected => cases silent

theorem TopReads.tokens_ne_nil {tokens rest : List Token} {diags : List Diag} {uses : List Use}
    {nodes : List AstNode} (reads : TopReads tokens rest diags uses nodes) : tokens ≠ [] := by
  cases reads with
  | function => exact List.cons_ne_nil _ _
  | globals => exact List.cons_ne_nil _ _
  | extrn reads =>
      obtain ⟨word⟩ := reads
      exact List.cons_ne_nil _ _
  | unexpected => exact List.cons_ne_nil _ _

/-- What is read of a text of the grammar is where it belongs. -/
theorem ProgramReads.placed {tokens : List Token} {diags : List Diag} {uses : List Use}
    {nodes : List AstNode} (reads : ProgramReads tokens diags uses nodes) (silent : diags = [])
    (program : IsProgram tokens) : AllProper uses := by
  induction reads with
  | nil => simp
  | cons top _ ih =>
      obtain ⟨first, second⟩ := List.append_eq_nil_iff.mp silent
      cases program with
      | nil => exact absurd rfl top.tokens_ne_nil
      | cons isTop others =>
          obtain ⟨rfl, proper⟩ := top.ends_at first isTop rfl others
          exact allProper_append.mpr ⟨proper, ih second others⟩

/-! The parser. -/

private theorem parser_placed {tokens : List Token} {p : Parser}
    (returned : parser (initParser tokens) = .ok ⟨⟩ p) (silent : p.stderr = [])
    (placed : ∀ uses nodes, ProgramReads tokens [] uses nodes → AllProper uses) :
    IsProgram tokens ∧ NamedIn tokens (namesOf p.ast) ∧
      ∀ id name, p.heap.HasKey id name →
        ∃ token ∈ tokens, token.kind = .identifier ∧ SameName (some name) token.lexeme := by
  obtain ⟨uses, reads, entered⟩ := parser_took returned
  rw [silent] at reads
  obtain ⟨program, used, named⟩ := reads.derives rfl (placed _ _ reads)
  refine ⟨program, named, fun id name key => ?_⟩
  obtain ⟨token, member, same⟩ := entered id name key
  have listed : token.lexeme ∈ usedNames uses :=
    List.mem_flatMap.mpr ⟨.name token, member, List.mem_singleton_self _⟩
  obtain ⟨token', at_, identifier, lexeme⟩ := used _ listed
  exact ⟨token', at_, identifier, lexeme ▸ same⟩

/-- Where the parser returns and has printed nothing, the tokens are a text of the grammar, and
the tree and the tables hold no names but those of identifiers, exactly where no reading of the
tokens takes one that does not belong in its place. -/
theorem parser_language {tokens : List Token} {p : Parser}
    (returned : parser (initParser tokens) = .ok ⟨⟩ p) (silent : p.stderr = []) :
    (IsProgram tokens ∧ NamedIn tokens (namesOf p.ast) ∧
      ∀ id name, p.heap.HasKey id name →
        ∃ token ∈ tokens, token.kind = .identifier ∧ SameName (some name) token.lexeme) ↔
      ∀ uses nodes, ProgramReads tokens [] uses nodes → AllProper uses :=
  ⟨fun language _ _ reads => reads.placed rfl language.1, parser_placed returned silent⟩

/-- The parser returns, has printed nothing and leaves these names in the tree. -/
def parsesNames (tokens : List Token) (names : List CStr) : Bool :=
  match parser (initParser tokens) with
  | .ok _ p => p.stderr == [] && namesOf p.ast == names
  | .error .. => false

private theorem returned_of_parsesNames {tokens : List Token} {names : List CStr}
    (parses : parsesNames tokens names = true) :
    ∃ p, parser (initParser tokens) = .ok ⟨⟩ p ∧ p.stderr = [] ∧ namesOf p.ast = names := by
  unfold parsesNames at parses
  split at parses
  next p parsed =>
    obtain ⟨silent, names⟩ := Bool.and_eq_true_iff.mp parses
    exact ⟨p, parsed, beq_iff_eq.mp silent, beq_iff_eq.mp names⟩
  next => cases parses

/-- `f() { goto a; a: }` -/
def jumpTokens : List Token :=
  [nameToken 'f', markToken .oPren, markToken .cPren, markToken .oBrace, markToken .goto,
    nameToken 'a', markToken .semicolon, nameToken 'a', markToken .colon, markToken .cBrace]

private theorem isProgram_jumpTokens : IsProgram jumpTokens := by
  have body : IsBody [markToken .goto, nameToken 'a', markToken .semicolon, nameToken 'a', markToken .colon] :=
    .cons (.goto ⟨markToken .goto, rfl⟩ ⟨nameToken 'a', rfl⟩ ⟨markToken .semicolon, rfl⟩)
      (.cons (.lable ⟨nameToken 'a', rfl⟩ ⟨markToken .colon, rfl⟩) .nil)
  have block := IsBlock.braces ⟨markToken .oBrace, rfl⟩ ⟨markToken .cBrace, rfl⟩ body
  exact .cons (.function ⟨nameToken 'f', rfl⟩ ⟨markToken .oPren, rfl⟩ ⟨markToken .cPren, rfl⟩
    (.inl rfl) (.scope block)) .nil

theorem parser_language_jump : ∃ p, parser (initParser jumpTokens) = .ok ⟨⟩ p ∧
    ∀ id name, p.heap.HasKey id name →
      ∃ token ∈ jumpTokens, token.kind = .identifier ∧ SameName (some name) token.lexeme := by
  have parses : parsesNames jumpTokens
      [(nameToken 'f').lexeme, (nameToken 'a').lexeme, (nameToken 'a').lexeme] = true := by decide +kernel
  obtain ⟨p, parsed, silent, -⟩ := returned_of_parsesNames parses
  have language := (parser_language parsed silent).mpr fun _ _ reads => reads.placed rfl isProgram_jumpTokens
  exact ⟨p, parsed, language.2.2⟩

/-- `f() { goto 5; }` -/
def numberJumpTokens : List Token :=
  [nameToken 'f', markToken .oPren, markToken .cPren, markToken .oBrace, markToken .goto,
    ⟨.int, some [byte '5'], 5, ⟨1, 1⟩⟩, markToken .semicolon, markToken .cBrace]

theorem parser_accepts_number_jump : ∃ p, parser (initParser numberJumpTokens) = .ok ⟨⟩ p ∧
    p.stderr = [] ∧ ¬ IsProgram numberJumpTokens ∧ ¬ NamedIn numberJumpTokens (namesOf p.ast) := by
  have parses : parsesNames numberJumpTokens [(nameToken 'f').lexeme, some [byte '5']] = true := by
    decide +kernel
  obtain ⟨p, parsed, silent, names⟩ := returned_of_parsesNames parses
  have foreign : ¬ NamedIn numberJumpTokens (namesOf p.ast) := by
    rw [names]
    unfold NamedIn
    decide
  refine ⟨p, parsed, silent, fun program => ?_, foreign⟩
  exact foreign (parser_placed parsed silent fun _ _ reads => reads.placed rfl program).2.1

end Trident
