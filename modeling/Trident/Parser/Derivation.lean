import Trident.Parser.Grammar
import Trident.Parser.Scopes

/-! Every run of the parser that returns is a reading of its tokens, with the diagnostics
and the nodes of that reading, and with no other names in its tables. -/

set_option autoImplicit false

namespace Trident

open Foundation

/-! What a run leaves behind apart from its tokens. -/

/-- The set has an entry for the name. -/
def HsHeap.HasKey (heap : HsHeap) (id : Nat) (name : Name) : Prop :=
  ∃ table, heap.sets id = some table ∧ (table.get name).isSome

/-- From `p` to `p'` the parser printed the diagnostics, appended the nodes to the program,
and entered only names that it took. -/
structure Parser.Took (p : Parser) (diags : List Diag) (nodes : List AstNode) (uses : List Use)
    (p' : Parser) : Prop where
  stderr : p'.stderr = p.stderr ++ diags
  ast : p'.ast = p.ast ++ nodes
  entries : ∀ id name, p'.heap.HasKey id name →
    p.heap.HasKey id name ∨ ∃ token, .name token ∈ uses ∧ SameName (some name) token.lexeme

section

variable {p p' p'' : Parser} {diags diags' : List Diag} {nodes nodes' : List AstNode}
  {uses uses' : List Use} {token : Token} {rest : List Token}

/-- Nothing but the tokens has changed. -/
theorem Parser.Took.of_eq (stderr : p'.stderr = p.stderr) (ast : p'.ast = p.ast)
    (heap : p'.heap = p.heap) : p.Took [] [] [] p' where
  stderr := by rw [stderr, List.append_nil]
  ast := by rw [ast, List.append_nil]
  entries _ _ entered := .inl (heap ▸ entered)

theorem Parser.Took.refl (p : Parser) : p.Took [] [] [] p := .of_eq rfl rfl rfl

theorem Parser.Took.read : p.Took [] [] [] (p.reading rest) := .of_eq rfl rfl rfl

theorem Parser.Took.trans (first : p.Took diags nodes uses p')
    (second : p'.Took diags' nodes' uses' p'') :
    p.Took (diags ++ diags') (nodes ++ nodes') (uses ++ uses') p'' where
  stderr := by rw [second.stderr, first.stderr, List.append_assoc]
  ast := by rw [second.ast, first.ast, List.append_assoc]
  entries id name entered := by
    obtain before | ⟨token, member, same⟩ := second.entries id name entered
    · obtain before | ⟨token, member, same⟩ := first.entries id name before
      · exact .inl before
      · exact .inr ⟨token, List.mem_append_left _ member, same⟩
    · exact .inr ⟨token, List.mem_append_right _ member, same⟩

/-- More may have been taken. -/
theorem Parser.Took.mono (took : p.Took diags nodes uses p') (subset : uses ⊆ uses') :
    p.Took diags nodes uses' p' where
  stderr := took.stderr
  ast := took.ast
  entries id name entered :=
    (took.entries id name entered).imp_right fun ⟨token, member, same⟩ => ⟨token, subset member, same⟩

theorem Parser.Took.bodyUses {tokens : List Token} (took : p.Took diags nodes uses p') :
    p.Took diags nodes (bodyUses tokens uses) p' where
  stderr := took.stderr
  ast := took.ast
  entries id name entered :=
    (took.entries id name entered).imp_right fun ⟨token, member, same⟩ =>
      ⟨token, name_mem_bodyUses.mpr member, same⟩

theorem Parser.Took.init (p : Parser) : p.Took [] [] [] { p with heap := p.heap.initHashSet.2 } where
  stderr := (List.append_nil _).symm
  ast := (List.append_nil _).symm
  entries id name entered := by
    obtain ⟨table, stored, present⟩ := entered
    by_cases fresh : id = p.heap.next
    · subst fresh
      cases (Function.update_self ..).symm.trans stored
      cases present
    · exact .inl ⟨table, (Function.update_of_ne fresh ..).symm.trans stored, present⟩

theorem Parser.Took.put {id : Nat} {table : Hs} {name : Name} (stored : p.heap.sets id = some table)
    (info : VarInfo) (named : token.lexeme = some name) :
    p.Took [] [] [.name token] { p with heap := p.heap.write id (table.put name info) } where
  stderr := (List.append_nil _).symm
  ast := (List.append_nil _).symm
  entries other key entered := by
    obtain ⟨table', stored', present⟩ := entered
    by_cases here : other = id
    · subst here
      cases (HsHeap.write_self ..).symm.trans stored'
      rw [Hs.get_put] at present
      split at present
      next same => exact .inr ⟨token, List.mem_singleton_self _, rfl, by rw [named]; exact congrArg some same⟩
      next => exact .inl ⟨table, stored, present⟩
    · exact .inl ⟨table', (HsHeap.write_of_ne _ _ here).symm.trans stored', present⟩

end

/-- The value of a run and the tokens it has read. -/
def Derived {α : Type} (reads : List Token → List Token → List Diag → List Use → α → Prop)
    (p : Parser) (value : α) (p' : Parser) : Prop :=
  ∃ diags uses, reads p.tok p'.tok diags uses value ∧ p.Took diags [] uses p'

section Rules

variable {α : Type} {post : α → Parser → Prop} {p : Parser} {token : Token} {rest : List Token}

private theorem returns_of_ok {action : ParseM α}
    (ended : ∀ value p', action p = .ok value p' → post value p') : Returns post action p := by
  unfold Returns RunEnds
  cases run : action p with
  | ok value p' => exact ended value p' run
  | error stop p' => trivial

private theorem expected_ends {kind : TokenKind} {next : PUnit → ParseM α}
    (second : ∀ diags token q, p.tok.head? = some token → Expected kind p.tok q.tok diags token →
      p.Took diags [] [] q → Returns post (next ⟨⟩) q) :
    Returns post (expectAndConsume kind >>= next) p := by
  apply expectAndConsume_ends (fun _ => trivial)
  · intro token rest at_ other
    refine second _ token _ (by rw [at_, List.head?_cons]) ?_ ⟨rfl, (List.append_nil _).symm, fun _ _ => .inl⟩
    change Expected kind p.tok p.tok _ token
    rw [at_]
    exact .missing token rest other
  · intro token rest at_ same
    refine second [] token _ (by rw [at_, List.head?_cons]) ?_ .read
    rw [at_]
    exact .found ⟨token, same⟩ rest

/-- The next token is known to be of the kind. -/
private theorem found_ends {kind : TokenKind} {next : PUnit → ParseM α} (at_ : p.tok = token :: rest)
    (same : token.kind = kind) (second : Returns post (next ⟨⟩) (p.reading rest)) :
    Returns post (expectAndConsume kind >>= next) p := by
  apply expectAndConsume_ends (fun _ => trivial)
  · intro token' rest' at_' other
    cases at_.symm.trans at_'
    exact absurd same other
  · intro token' rest' at_' _
    cases at_.symm.trans at_'
    exact second

private theorem modify_ends {change : Parser → Parser} {next : PUnit → ParseM α}
    (second : Returns post (next ⟨⟩) (change p)) : Returns post (modify change >>= next) p := second

private theorem initHashSet_ends {next : Nat → ParseM α}
    (second : ∀ id q, p.Took [] [] [] q → q.tok = p.tok → Returns post (next id) q) :
    Returns post (initHashSet >>= next) p :=
  second _ _ (.init p) rfl

private theorem putToHashSet_ends {id : Nat} {info : VarInfo} {next : PUnit → ParseM α}
    (second : ∀ q, token.lexeme.isSome → p.Took [] [] [.name token] q → q.tok = p.tok →
      Returns post (next ⟨⟩) q) :
    Returns post (putToHashSet id token.lexeme info >>= next) p := by
  apply returns_of_ok
  intro value p' accepted
  obtain ⟨_, q, stored, accepted⟩ := bind_eq_ok.mp accepted
  obtain ⟨name, table, named, present, rfl⟩ := putToHashSet_ok stored
  exact (second _ (by rw [named]; rfl) (.put present info named) rfl).of_ok accepted

private theorem addNode_ends {tail : Option (List AstNode)} {node : AstNode}
    {next : Option (List AstNode) → ParseM α}
    (second : ∀ nodes, tail = some nodes → Returns post (next (some (nodes ++ [node]))) p) :
    Returns post (addNode tail (some node) >>= next) p := by
  cases tail with
  | none => trivial
  | some nodes => exact second nodes rfl

/-- A comma that may follow. -/
private theorem optionalComma_ends {next : ParseM α}
    (second : ∀ comma q, CommaReads p.tok q.tok comma → p.Took [] [] [] q → Returns post next q) :
    Returns post
      (do
        if ← isKind .comma then
          discard pconsume
        next) p := by
  apply isKind_ends
  · exact fun none_ => second none p (.none none_) (.refl p)
  · intro token rest at_ same
    apply skip_ends at_
    exact second (some ⟨token, same⟩) _ (at_ ▸ .some ⟨token, same⟩ rest) .read

private theorem parseExprF_takes (fuel : Nat) (p : Parser) :
    Returns (Derived ExprReads p) (parseExprF fuel precNone) p := by
  apply returns_of_ok
  intro node p' accepted
  obtain ⟨text, rfl, taken, -, stops⟩ := ((ExprText.sound fuel p).expr precNone).of_ok accepted
  obtain ⟨diags, stderr⟩ := taken.span.stderr
  obtain ⟨heap, -, ast, -⟩ := (SameTables.parseExprF fuel precNone).of_ok accepted
  have closed : diags = [] → text.Closed := by
    intro none_
    apply taken.closed
    rw [Parser.Silent, ← stderr, none_, List.append_nil]
  refine ⟨diags, text.uses, ⟨text, taken.span.tok, rfl, rfl, taken.grouped, taken.plain, stops, closed⟩, ?_⟩
  exact ⟨stderr.symm, by rw [ast, List.append_nil], fun _ _ entered => .inl (heap ▸ entered)⟩

end Rules

/-! Statements, by induction on the fuel. -/

section Statements

variable {fuel : Nat} {p : Parser} {token : Token} {rest : List Token}

private theorem parseAutoSize_takes (p : Parser) :
    Returns (fun size p' => ∃ diags, AutoSizeReads p.tok p'.tok diags size ∧ p.Took diags [] [] p')
      parseAutoSize p := by
  apply isKind_ends
  · exact fun none_ => ⟨[], .none none_, .refl p⟩
  · intro opened rest at_ same
    apply skip_ends at_
    apply tokField_ends (fun _ => trivial)
    intro size rest' at_'
    apply expected_ends
    intro diags size' q head number first
    obtain rfl : size = size' := by simpa [at_'] using head
    apply expected_ends
    intro diags' closed q' _ closer second
    rw [at_]
    exact ⟨_, .size ⟨opened, same⟩ number closer, Parser.Took.read.trans (first.trans second)⟩

private theorem parseAutoLoop_takes (fuel symtab : Nat) (tail : Option (List AstNode)) (p : Parser) :
    Returns (fun tail' p' => ∃ nodes added, tail = some nodes ∧ tail' = some (nodes ++ added) ∧
      Derived AutosRead p added p') (parseAutoLoop fuel symtab tail) p := by
  induction fuel generalizing tail p with
  | zero => trivial
  | succ fuel ih =>
      apply tokField_ends (fun _ => trivial)
      intro name rest at_
      apply expected_ends
      intro diags name' q head identifier first
      obtain rfl : name = name' := by simpa [at_] using head
      apply RunEnds.bind (parseAutoSize_takes q)
      rintro count q' ⟨diags', size, second⟩
      apply putToHashSet_ends
      intro r named stored same
      apply addNode_ends
      rintro nodes rfl
      have before := first.trans (second.trans stored)
      rw [← same] at size
      apply isKind_ends
      · intro none_
        refine ⟨nodes, _, rfl, rfl, _, _, .last identifier named size none_, ?_⟩
        simpa using before
      · intro comma rest' at_' same
        apply skip_ends at_'
        apply RunEnds.mono (ih _ _) _ (fun _ _ _ => trivial)
        rintro tail' p' ⟨nodes', added, grown, rfl, diags'', uses, more, later⟩
        cases grown
        rw [at_'] at size
        refine ⟨nodes, .auto name.lexeme count :: added, rfl, by simp, _, _,
          .cons ⟨comma, same⟩ identifier named size more, ?_⟩
        simpa using before.trans (Parser.Took.read.trans later)

private theorem parseExtrnLoop_takes (fuel : Nat) (tail : Option (List AstNode)) (p : Parser) :
    Returns (fun tail' p' => ∃ nodes added uses, tail = some nodes ∧
      tail' = some (nodes ++ added) ∧ ExternsRead p.tok p'.tok uses added ∧ p.Took [] [] uses p' ∧
      ∃ (semicolon : Mark .semicolon) (rest : List Token), p'.tok = semicolon.1 :: rest)
      (parseExtrnLoop fuel tail) p := by
  induction fuel generalizing tail p with
  | zero => trivial
  | succ fuel ih =>
      apply tokField_ends (fun _ => trivial)
      intro name rest at_
      apply skip_ends at_
      apply optionalComma_ends
      intro comma q comma_reads first
      have before : p.Took [] [] [] q := Parser.Took.read.trans first
      apply addNode_ends
      rintro nodes rfl
      rw [at_]
      apply isKind_ends
      · intro none_
        apply RunEnds.mono (ih _ _) _ (fun _ _ _ => trivial)
        rintro tail' p' ⟨nodes', added, uses, grown, rfl, names, later, closes⟩
        cases grown
        refine ⟨nodes, .extrn name.lexeme :: added, _, rfl, by simp,
          .cons name comma_reads none_ names, (before.trans later).mono ?_, closes⟩
        exact fun _ member => List.mem_cons_of_mem _ (List.mem_cons_of_mem _ member)
      · intro semicolon rest' at_' same
        have closes : NextIs .semicolon q.tok := ⟨semicolon, by rw [at_']; rfl, same⟩
        exact ⟨nodes, _, _, rfl, rfl, .last name comma_reads closes, before.mono (List.nil_subset _),
          ⟨semicolon, same⟩, rest', at_'⟩

/-- The tail that `auto` and `extrn` have appended to. -/
def Extended (reads : List Token → List Token → List Diag → List Use → List AstNode → Prop)
    (tail : Option (List AstNode)) (p : Parser) (tail' : Option (List AstNode)) (p' : Parser) :
    Prop :=
  ∃ nodes added, tail = some nodes ∧ tail' = some (nodes ++ added) ∧ Derived reads p added p'

private theorem parseAutoS_takes (symtab : Nat) (tail : Option (List AstNode)) (at_ : p.tok = token :: rest)
    (same : token.kind = .auto) :
    Returns (Extended DeclarationReads tail p) (parseAutoS fuel symtab tail) p := by
  apply found_ends at_ same
  apply RunEnds.bind (parseAutoLoop_takes fuel symtab tail _)
  rintro tail' q ⟨nodes, added, rfl, rfl, diags, uses, autos, first⟩
  apply expected_ends
  intro diags' semicolon p' _ closer second
  have reads : DeclarationReads p.tok p'.tok (diags ++ diags') uses added := by
    rw [at_]
    exact .auto ⟨token, same⟩ autos closer
  refine ⟨nodes, added, rfl, rfl, _, _, reads, ?_⟩
  simpa using Parser.Took.read.trans (first.trans second)

private theorem parseExtrnS_takes (tail : Option (List AstNode)) (at_ : p.tok = token :: rest)
    (same : token.kind = .extrn) :
    Returns (Extended (fun tokens rest diags uses nodes => diags = [] ∧ ExternReads tokens rest uses nodes)
      tail p) (parseExtrnS fuel tail) p := by
  apply found_ends at_ same
  apply RunEnds.bind (parseExtrnLoop_takes fuel tail _)
  rintro tail' q ⟨nodes, added, uses, rfl, rfl, names, first, semicolon, rest', closes⟩
  apply found_ends closes semicolon.2
  rw [closes] at names
  have reads : ExternReads p.tok rest' uses added := by
    rw [at_]
    exact .extrn ⟨token, same⟩ semicolon names
  refine ⟨nodes, added, rfl, rfl, [], uses, ⟨rfl, reads⟩, ?_⟩
  simpa using Parser.Took.read.trans (first.trans .read)

private theorem parseGotoS_takes (at_ : p.tok = token :: rest) (same : token.kind = .goto) :
    Returns (Derived StatementReads p) parseGotoS p := by
  apply found_ends at_ same
  apply tokField_ends (fun _ => trivial)
  intro name rest' at_'
  apply skip_ends at_'
  apply expected_ends
  intro diags semicolon p' _ closer later
  obtain rfl : rest = name :: rest' := at_'
  have reads : StatementReads p.tok p'.tok diags [.name name] (.goto name.lexeme) := by
    rw [at_]
    exact .goto ⟨token, same⟩ name closer
  refine ⟨_, _, reads, ?_⟩
  exact (Parser.Took.read.trans (Parser.Took.read.trans later)).mono (List.nil_subset _)

private theorem parseReturnS_takes (at_ : p.tok = token :: rest) (same : token.kind = .return_) :
    Returns (Derived StatementReads p) (parseReturnS fuel) p := by
  apply found_ends at_ same
  apply RunEnds.bind (parseExprF_takes fuel _)
  rintro node q ⟨diags, uses, value, first⟩
  apply expected_ends
  intro diags' semicolon p' _ closer second
  have reads : StatementReads p.tok p'.tok (diags ++ diags') uses (.return_ (some node)) := by
    rw [at_]
    exact .return_ ⟨token, same⟩ value closer
  refine ⟨_, _, reads, ?_⟩
  simpa using Parser.Took.read.trans (first.trans second)

private theorem parseLableS_takes {name : Mark .identifier} {colon : Mark .colon}
    (at_ : p.tok = name.1 :: colon.1 :: rest) : Returns (Derived StatementReads p) parseLableS p := by
  apply tokField_ends (fun _ => trivial)
  intro token rest' at_'
  cases at_.symm.trans at_'
  change Returns (Derived StatementReads p) (putToHashSet p.tLableTab name.1.lexeme _ >>= _) p
  apply putToHashSet_ends
  intro q named stored same
  have at_'' : q.tok = name.1 :: colon.1 :: rest := same.trans at_
  apply skip_ends at_''
  apply skip_ends (rfl : (q.reading (colon.1 :: rest)).tok = colon.1 :: rest)
  have reads : StatementReads p.tok rest [] [.name name.1] (.lable name.1.lexeme) := by
    rw [at_]
    exact .lable name colon rest named
  refine ⟨_, _, reads, ?_⟩
  simpa using stored.trans (Parser.Took.read.trans .read)

/-- A comma is no node, anything else an expression. -/
private theorem parseExprS_takes (fuel : Nat) (p : Parser)
    (ahead : NextNot .comma p.tok → ExprAhead p.tok) :
    Returns (fun statement p' =>
      (∃ node, statement = some node ∧ Derived StatementReads p node p') ∨
        (statement = none ∧ Derived DeclarationReads p [] p')) (parseExprS fuel) p := by
  apply isKind_ends
  · intro none_
    apply RunEnds.bind (parseExprF_takes fuel p)
    rintro node q ⟨diags, uses, value, first⟩
    apply expected_ends
    intro diags' semicolon p' _ closer second
    refine .inl ⟨_, rfl, _, _, .expr (ahead none_) value closer, ?_⟩
    simpa using first.trans second
  · intro comma rest at_ same
    apply skip_ends at_
    have reads : DeclarationReads p.tok rest [] [.comma (some ⟨comma, same⟩) false] [] := by
      rw [at_]
      exact .comma ⟨comma, same⟩ rest
    exact .inr ⟨rfl, _, _, reads, Parser.Took.read.mono (List.nil_subset _)⟩

/-- A statement that is a node, or the nodes of a declaration at the end of the list. -/
def TakesStatement (tail : Option (List AstNode)) (p : Parser)
    (result : Option AstNode × Option (List AstNode)) (p' : Parser) : Prop :=
  (∃ node, result = (some node, tail) ∧ Derived StatementReads p node p') ∨
    ∃ added, result.1 = none ∧ (∀ nodes, tail = some nodes → result.2 = some (nodes ++ added)) ∧
      Derived DeclarationReads p added p'

/-- What `parse_if_s` returns. -/
def TakesIf (statementKind : AstKind) (p : Parser) (node : AstNode) (p' : Parser) : Prop :=
  ∃ condition body chain diags uses,
    node = (if statementKind = .if_ then .if_ condition body chain else .elseIf condition body chain) ∧
    IfReads p.tok p'.tok diags uses condition body chain ∧ p.Took diags [] uses p'

/-- What the parsers of statements return, from `p`. -/
structure StatementsTake (fuel : Nat) (p : Parser) : Prop where
  statement : ∀ parent symtab tail,
    Returns (TakesStatement tail p) (parseStatementsF fuel parent symtab tail) p
  scope : ∀ parent symtab, Returns (fun node p' => ∃ scopeN body, node = .scope scopeN body ∧
    Derived BlockReads p body p') (parseScopeF fuel parent symtab) p
  body : ∀ scopeN before, Returns (fun body p' => ∃ added, body = before ++ added ∧
    Derived BodyReads p added p') (parseScopeBody fuel scopeN before) p
  ifS : ∀ statementKind parent (word : Mark .if_) rest, p.tok = word.1 :: rest →
    Returns (TakesIf statementKind p) (parseIfS fuel statementKind parent) p
  chain : ∀ parent, Returns (Derived ChainReads p) (parseIfChain fuel parent) p
  while_ : ∀ parent (word : Mark .while_) rest, p.tok = word.1 :: rest →
    Returns (Derived StatementReads p) (parseWhileS fuel parent) p

/-- A list of tokens from its first two. -/
private theorem cons_of_second {tokens rest : List Token} {first second : Token} {kind : TokenKind}
    (at_ : tokens = first :: rest) (head : tokens.tail.head? = some second)
    (same : second.kind = kind) :
    ∃ (mark : Mark kind) (more : List Token), tokens = first :: mark.1 :: more := by
  subst at_
  cases rest with
  | nil => simp at head
  | cons other more =>
      obtain rfl : other = second := by simpa using head
      exact ⟨⟨other, same⟩, more, rfl⟩

private theorem parseStatementsF_takes (ih : ∀ p, StatementsTake fuel p) (parent : List Nat) (symtab : Nat)
    (tail : Option (List AstNode)) (p : Parser) :
    Returns (TakesStatement tail p) (parseStatementsF (fuel + 1) parent symtab tail) p := by
  apply tokField_ends (fun _ => trivial)
  intro token rest at_
  apply ppeak_ends
  have node_ends : ∀ {action : ParseM AstNode}, Returns (Derived StatementReads p) action p →
      Returns (TakesStatement tail p) (do return (some (← action), tail)) p := by
    intro action returns
    apply RunEnds.bind returns
    intro node p' taken
    exact .inl ⟨node, rfl, taken⟩
  have expr_ends (starts : startsOther token.kind = true → token.kind = .comma)
      (noLable : token.kind = .identifier → NextNot .colon rest) :
      Returns (TakesStatement tail p) (do return (← parseExprS fuel, tail)) p := by
    have ahead : NextNot .comma p.tok → ExprAhead p.tok := by
      rw [at_]
      intro none_
      refine .ahead (Bool.eq_false_iff.mpr fun other => ?_) noLable
      exact none_ token rfl (starts other)
    apply RunEnds.bind (parseExprS_takes fuel p ahead)
    rintro _ p' (⟨node, rfl, taken⟩ | ⟨rfl, taken⟩)
    · exact .inl ⟨node, rfl, taken⟩
    · exact .inr ⟨[], rfl, fun nodes same => by rw [same, List.append_nil], taken⟩
  have tail_ends : ∀ {reads : List Token → List Token → List Diag → List Use → List AstNode → Prop}
      {action : ParseM (Option (List AstNode))},
      (∀ rest diags uses nodes, reads p.tok rest diags uses nodes →
        DeclarationReads p.tok rest diags uses nodes) →
      Returns (Extended reads tail p) action p →
      Returns (TakesStatement tail p) (do return (none, ← action)) p := by
    intro reads action declared returns
    apply RunEnds.bind returns
    rintro tail' p' ⟨nodes, added, rfl, rfl, diags, uses, read, took⟩
    exact .inr ⟨added, rfl, fun _ same => by cases same; rfl, diags, uses, declared _ _ _ _ read, took⟩
  cases kind : token.kind
  case auto => exact tail_ends (fun _ _ _ _ read => read) (parseAutoS_takes symtab tail at_ kind)
  case extrn =>
    refine tail_ends ?_ (parseExtrnS_takes tail at_ kind)
    rintro rest diags uses nodes ⟨rfl, read⟩
    exact .extrn read
  case goto => exact node_ends (parseGotoS_takes at_ kind)
  case oBrace =>
    apply initHashSet_ends
    intro id q made same
    apply RunEnds.bind ((ih q).scope parent id)
    rintro _ p' ⟨scopeN, body, rfl, diags, uses, block, took⟩
    rw [same] at block
    have opens : NextIs .oBrace p.tok := ⟨token, by rw [at_]; rfl, kind⟩
    exact .inl ⟨_, rfl, diags, uses, .scope scopeN opens block, made.trans took⟩
  case return_ => exact node_ends (parseReturnS_takes at_ kind)
  case if_ =>
    apply RunEnds.bind ((ih p).ifS .if_ parent ⟨token, kind⟩ rest at_)
    rintro _ p' ⟨condition, body, chain, diags, uses, rfl, read, took⟩
    exact .inl ⟨_, rfl, diags, uses, .if_ read, took⟩
  case while_ => exact node_ends ((ih p).while_ parent ⟨token, kind⟩ rest at_)
  case identifier =>
    dsimp only
    split
    next lable =>
      obtain ⟨colon, head, same⟩ := Option.any_eq_true .. |>.mp lable
      obtain ⟨mark, more, tokens⟩ := cons_of_second at_ head (beq_iff_eq.mp same)
      have name_colon : p.tok = (⟨token, kind⟩ : Mark .identifier).1 :: mark.1 :: more := tokens
      exact node_ends (parseLableS_takes name_colon)
    next noLable =>
      refine expr_ends (by rw [kind]; decide) fun _ next member same => noLable ?_
      rw [at_, List.tail_cons, Option.mem_def.mp member]
      exact beq_iff_eq.mpr same
  all_goals exact expr_ends (by rw [kind]; decide) (by rw [kind]; nofun)

private theorem parseScopeBody_takes (ih : ∀ p, StatementsTake fuel p) (scopeN : AstScope)
    (before : List AstNode) (p : Parser) :
    Returns (fun body p' => ∃ added, body = before ++ added ∧ Derived BodyReads p added p')
      (parseScopeBody (fuel + 1) scopeN before) p := by
  apply curr_ends
  · intro ended
    have stops : ∀ next ∈ p.tok.head?, next.kind = .cBrace := by simp [ended]
    exact ⟨[], (List.append_nil _).symm, [], [], .nil stops, .refl p⟩
  intro token rest at_
  dsimp only
  split
  next closes =>
    have stops : ∀ next ∈ p.tok.head?, next.kind = .cBrace := by simp [at_, closes]
    exact ⟨[], (List.append_nil _).symm, [], [], .nil stops, .refl p⟩
  next other =>
    have goesOn : NextNot .cBrace p.tok := by simp [NextNot, at_, other]
    apply RunEnds.bind ((ih p).statement scopeN.chain scopeN.symtab (some before))
    rintro ⟨statement, tail⟩ q
      (⟨node, same, diags, uses, read, took⟩ | ⟨added, rfl, grown, diags, uses, read, took⟩)
    · cases same
      apply addNode_ends
      rintro nodes same
      cases same
      apply RunEnds.mono ((ih q).body scopeN (before ++ [node])) _ (fun _ _ _ => trivial)
      rintro _ p' ⟨added, rfl, diags', uses', read', took'⟩
      exact ⟨node :: added, by simp, _, _, .statement goesOn read read', took.bodyUses.trans took'⟩
    · cases grown before rfl
      apply RunEnds.mono ((ih q).body scopeN (before ++ added)) _ (fun _ _ _ => trivial)
      rintro _ p' ⟨added', rfl, diags', uses', read', took'⟩
      exact ⟨added ++ added', by simp, _, _, .declaration read read', took.trans took'⟩

private theorem parseIfS_takes (ih : ∀ p, StatementsTake fuel p) (statementKind : AstKind)
    (parent : List Nat) (word : Mark .if_) (at_ : p.tok = word.1 :: rest) :
    Returns (TakesIf statementKind p) (parseIfS (fuel + 1) statementKind parent) p := by
  apply found_ends at_ word.2
  apply expected_ends
  intro diags₁ opened q₁ _ opener first
  apply RunEnds.bind (parseExprF_takes fuel q₁)
  rintro condition q₂ ⟨diags₂, uses, test, second⟩
  apply expected_ends
  intro diags₃ closed q₃ _ closer third
  apply initHashSet_ends
  intro id q₄ made same
  apply RunEnds.bind ((ih q₄).scope parent id)
  rintro _ q₅ ⟨scopeN, body, rfl, diags₄, uses', block, fourth⟩
  apply RunEnds.bind ((ih q₅).chain parent)
  rintro chain p' ⟨diags₅, uses'', chained, fifth⟩
  rw [same] at block
  have reads : IfReads p.tok p'.tok (diags₁ ++ (diags₂ ++ (diags₃ ++ (diags₄ ++ diags₅))))
      (uses ++ (uses' ++ uses'')) condition (.scope scopeN body) chain := by
    rw [at_]
    exact .if_ word scopeN opener test closer block chained
  exact ⟨condition, _, chain, _, _, rfl, reads, Parser.Took.read.trans
    (first.trans (second.trans (third.trans (made.trans (fourth.trans fifth)))))⟩

private theorem parseIfChain_takes (ih : ∀ p, StatementsTake fuel p) (parent : List Nat) (p : Parser) :
    Returns (Derived ChainReads p) (parseIfChain (fuel + 1) parent) p := by
  apply isKind_ends
  · exact fun none_ => ⟨[], [], .done none_, .refl p⟩
  intro word rest at_ same
  apply skip_ends at_
  apply isKind_ends
  · intro noIf
    apply initHashSet_ends
    intro id q made unread
    apply RunEnds.bind ((ih q).scope parent id)
    rintro _ p' ⟨scopeN, body, rfl, diags, uses, block, took⟩
    rw [unread] at block
    have reads : ChainReads p.tok p'.tok diags uses (some (.else_ scopeN body)) := by
      rw [at_]
      exact .else_ ⟨word, same⟩ scopeN noIf block
    exact ⟨_, _, reads, Parser.Took.read.trans (made.trans took)⟩
  · intro word' rest' at_' same'
    apply RunEnds.bind ((ih _).ifS .elseIf parent ⟨word', same'⟩ rest' at_')
    rintro _ p' ⟨condition, body, chain, diags, uses, rfl, read, took⟩
    have reads : ChainReads p.tok p'.tok diags uses (some (.elseIf condition body chain)) := by
      rw [at_]
      exact .elseIf ⟨word, same⟩ read
    exact ⟨_, _, reads, Parser.Took.read.trans took⟩

private theorem parseWhileS_takes (ih : ∀ p, StatementsTake fuel p) (parent : List Nat) (word : Mark .while_)
    (at_ : p.tok = word.1 :: rest) :
    Returns (Derived StatementReads p) (parseWhileS (fuel + 1) parent) p := by
  apply initHashSet_ends
  intro id q made same
  have at_' := same.trans at_
  apply found_ends at_' word.2
  apply expected_ends
  intro diags₁ opened q₁ _ opener first
  apply RunEnds.bind (parseExprF_takes fuel q₁)
  rintro condition q₂ ⟨diags₂, uses, test, second⟩
  apply expected_ends
  intro diags₃ closed q₃ _ closer third
  apply RunEnds.bind ((ih q₃).scope parent id)
  rintro _ p' ⟨scopeN, body, rfl, diags₄, uses', block, fourth⟩
  have reads : StatementReads p.tok p'.tok (diags₁ ++ (diags₂ ++ (diags₃ ++ diags₄)))
      (uses ++ uses') (.while_ condition (.scope scopeN body)) := by
    rw [at_]
    exact .while_ word scopeN opener test closer block
  exact ⟨_, _, reads,
    made.trans (Parser.Took.read.trans (first.trans (second.trans (third.trans fourth))))⟩

private theorem statementsTake (fuel : Nat) (p : Parser) : StatementsTake fuel p := by
  induction fuel generalizing p with
  | zero => constructor <;> intros <;> trivial
  | succ fuel ih =>
      constructor
      case statement => exact fun parent symtab tail => parseStatementsF_takes ih parent symtab tail p
      case scope =>
        intro parent symtab
        apply expected_ends
        intro diags₁ opened q _ opener first
        apply RunEnds.bind ((ih q).body ⟨symtab, parent⟩ [])
        rintro body q' ⟨_, rfl, diags₂, uses, inner, second⟩
        apply expected_ends
        intro diags₃ closed p' _ closer third
        refine ⟨_, body, rfl, _, _, .braces opener inner closer, ?_⟩
        simpa using first.trans (second.trans third)
      case body => exact fun scopeN before => parseScopeBody_takes ih scopeN before p
      case ifS => exact fun kind parent word rest at_ => parseIfS_takes ih kind parent word at_
      case chain => exact fun parent => parseIfChain_takes ih parent p
      case while_ => exact fun parent word rest at_ => parseWhileS_takes ih parent word at_

end Statements

/-! The parts of the program that stand outside of functions, and the functions. -/

section Program

variable {p : Parser} {rest : List Token}

private theorem parseParams_takes (fuel symtable params : Nat) (p : Parser) :
    Returns (fun params' p' => ∃ count uses, params' = params + count ∧
      ParamsRead p.tok p'.tok uses count ∧ p.Took [] [] uses p' ∧
      ∃ (closed : Mark .cPren) (rest : List Token), p'.tok = closed.1 :: rest)
      (parseParams fuel symtable params) p := by
  induction fuel generalizing params p with
  | zero => trivial
  | succ fuel ih =>
      apply tokField_ends (fun _ => trivial)
      intro name rest at_
      split
      next closes =>
        have ends : NextIs .cPren p.tok := ⟨name, by rw [at_]; rfl, closes⟩
        exact ⟨0, [], rfl, .nil ends, .refl p, ⟨name, closes⟩, rest, at_⟩
      next other =>
        apply tokField_ends (fun _ => trivial)
        intro name' rest' at_'
        cases at_.symm.trans at_'
        apply skip_ends at_
        apply putToHashSet_ends
        intro q named stored same
        apply optionalComma_ends
        intro comma q' comma_reads read
        apply RunEnds.mono (ih (params + 1) q') _ (fun _ _ _ => trivial)
        rintro _ p' ⟨count, uses, rfl, more, later, closes⟩
        rw [same] at comma_reads
        have reads : ParamsRead p.tok p'.tok (.name name :: .comma comma (count != 0) :: uses)
            (count + 1) := by
          rw [at_]
          exact .cons name other named comma_reads more
        refine ⟨count + 1, _, by omega, reads, ?_, closes⟩
        refine (Parser.Took.read.trans (stored.trans (read.trans later))).mono ?_
        exact List.cons_subset_cons _ (List.subset_cons_self ..)

private theorem parseFunctionS_takes {fuel : Nat} {name : CStr} (opened : Mark .oPren)
    (at_ : p.tok = opened.1 :: rest) :
    Returns (fun node p' => ∃ paramsTab lableTab count body diags uses uses' tokens,
      ∃ closed : Mark .cPren, node = .function name paramsTab lableTab count body ∧
        ParamsRead rest (closed.1 :: tokens) uses count ∧
        StatementReads tokens p'.tok diags uses' body ∧ p.Took diags [] (uses ++ uses') p')
      (parseFunctionS fuel name) p := by
  apply initHashSet_ends
  intro symtable q₁ made same
  apply initHashSet_ends
  intro lableTable q₂ made' same'
  have entered : q₂.Took [] [] [] { q₂ with tLableTab := lableTable } := .of_eq rfl rfl rfl
  have at_' : ({ q₂ with tLableTab := lableTable } : Parser).tok = opened.1 :: rest :=
    same'.trans (same.trans at_)
  change Returns _ (expectAndConsume .oPren >>= _) { q₂ with tLableTab := lableTable }
  apply found_ends at_' opened.2
  apply RunEnds.bind (parseParams_takes fuel symtable 0 _)
  rintro _ q₃ ⟨count, uses, rfl, params, second, closed, rest', closes⟩
  apply found_ends closes closed.2
  apply RunEnds.bind ((statementsTake fuel _).statement [symtable, q₃.globalTable] symtable none)
  rintro ⟨statement, tail⟩ p' (⟨node, same, diags, uses', body, third⟩ | ⟨_, rfl, _⟩)
  · cases same
    rw [Nat.zero_add]
    rw [closes] at params
    refine ⟨symtable, lableTable, count, node, diags, uses, uses', rest', closed, rfl, params, body, ?_⟩
    exact made.trans (made'.trans (entered.trans (Parser.Took.read.trans
      (second.trans (Parser.Took.read.trans third)))))
  · trivial

private theorem parseGlobalSize_takes (p : Parser) :
    Returns (Derived GlobalSizeReads p) parseGlobalSize p := by
  apply isKind_ends
  · exact fun none_ => ⟨[], [], .none none_, .refl p⟩
  · intro opened rest at_ same
    apply skip_ends at_
    apply tokField_ends (fun _ => trivial)
    intro size rest' at_'
    obtain rfl : rest = size :: rest' := at_'
    apply skip_ends rfl
    apply expected_ends
    intro diags closed q _ closer later
    have reads : GlobalSizeReads p.tok q.tok diags [.size size] size.intLit := by
      rw [at_]
      exact .size ⟨opened, same⟩ size closer
    exact ⟨_, _, reads, (Parser.Took.read.trans (Parser.Took.read.trans later)).mono (List.nil_subset _)⟩

private theorem parseGlobalLoop_takes (fuel : Nat) (name : Token) (p : Parser) :
    Returns (fun _ p' => ∃ diags uses nodes, GlobalsRead name p.tok p'.tok diags uses nodes ∧
      p.Took diags nodes uses p') (parseGlobalLoop fuel name.lexeme) p := by
  induction fuel generalizing name p with
  | zero => trivial
  | succ fuel ih =>
      apply RunEnds.bind (parseGlobalSize_takes p)
      rintro count q₁ ⟨diags, uses, size, first⟩
      change Returns _ (putToHashSet q₁.globalTable name.lexeme _ >>= _) q₁
      apply putToHashSet_ends
      intro q₂ named stored same
      have added : q₂.Took [] [.global name.lexeme count] []
          { q₂ with ast := q₂.ast ++ [.global name.lexeme count] } :=
        ⟨(List.append_nil _).symm, rfl, fun _ _ => .inl⟩
      have before : p.Took diags [.global name.lexeme count] (uses ++ [.name name])
          { q₂ with ast := q₂.ast ++ [.global name.lexeme count] } := by
        simpa using first.trans (stored.trans added)
      rw [← same] at size
      apply modify_ends
      apply isKind_ends
      · intro none_
        refine ⟨_, _, _, .last named size none_, before.mono fun use member => ?_⟩
        simpa [or_comm] using member
      · intro comma rest' at_ same
        apply skip_ends at_
        apply tokField_ends (fun _ => trivial)
        intro next rest'' at_'
        apply skip_ends at_'
        apply RunEnds.mono (ih next _) _ (fun _ _ _ => trivial)
        rintro _ p' ⟨diags', uses', nodes, more, later⟩
        obtain rfl : rest' = next :: rest'' := at_'
        have size_reads : GlobalSizeReads p.tok (comma :: next :: rest'') diags uses count := by
          rw [← at_]
          exact size
        refine ⟨_, _, _, .cons ⟨comma, same⟩ next named size_reads more, ?_⟩
        have took := before.trans (Parser.Took.read.trans (Parser.Took.read.trans later))
        refine took.mono fun use member => ?_
        simp only [List.mem_append, List.mem_cons, List.not_mem_nil, or_false, false_or] at member ⊢
        tauto

private theorem parserLoop_takes (fuel : Nat) (p : Parser) :
    Returns (fun _ p' => ∃ diags uses nodes, ProgramReads p.tok diags uses nodes ∧
      p.Took diags nodes uses p') (parserLoop fuel) p := by
  induction fuel generalizing p with
  | zero => trivial
  | succ fuel ih =>
      have again : ∀ {diags uses nodes} q, TopReads p.tok q.tok diags uses nodes →
          p.Took diags nodes uses q →
          Returns (fun _ p' => ∃ diags uses nodes, ProgramReads p.tok diags uses nodes ∧
            p.Took diags nodes uses p') (parserLoop fuel) q := by
        intro diags uses nodes q read took
        apply RunEnds.mono (ih q) _ (fun _ _ _ => trivial)
        rintro _ p' ⟨diags', uses', nodes', rest, took'⟩
        exact ⟨_, _, _, .cons read rest, took.trans took'⟩
      apply curr_ends
      · exact fun ended => ⟨[], [], [], ended ▸ .nil, .refl p⟩
      intro token rest at_
      dsimp only
      split
      next identifier =>
        apply skip_ends at_
        apply tokField_ends (fun _ => trivial)
        intro next rest' at_'
        obtain rfl : rest = next :: rest' := at_'
        split
        next opened =>
          apply RunEnds.bind (parseFunctionS_takes ⟨next, opened⟩ rfl)
          rintro node q ⟨paramsTab, lableTab, count, body, diags, uses, uses', tokens, closed, rfl, params,
            inner, took⟩
          have added : q.Took [] [.function token.lexeme paramsTab lableTab count body] []
              { q with ast := q.ast ++ [.function token.lexeme paramsTab lableTab count body] } :=
            ⟨(List.append_nil _).symm, rfl, fun _ _ => .inl⟩
          have reads : TopReads p.tok q.tok diags (.name token :: (uses ++ uses'))
              [.function token.lexeme paramsTab lableTab count body] := by
            rw [at_]
            exact .function ⟨token, identifier⟩ ⟨next, opened⟩ closed paramsTab lableTab params inner
          apply modify_ends
          refine again _ reads ?_
          have whole := Parser.Took.read.trans (took.trans added)
          rw [List.append_nil] at whole
          exact whole.mono (by simp)
        next noFunction =>
          rw [parseGlobalS, bind_assoc]
          apply RunEnds.bind (parseGlobalLoop_takes fuel token _)
          rintro _ q ⟨diags, uses, nodes, globals, took⟩
          apply expected_ends
          intro diags' semicolon q' _ closer later
          have plain : NextNot .oPren (next :: rest') := by simpa [NextNot] using noFunction
          have reads : TopReads p.tok q'.tok (diags ++ diags') uses nodes := by
            rw [at_]
            exact .globals ⟨token, identifier⟩ plain globals closer
          refine again q' reads ?_
          simpa using Parser.Took.read.trans (took.trans later)
      next other =>
        split
        next word =>
          change Returns _ (parseExtrnS fuel (some p.ast) >>= _) p
          apply RunEnds.bind (parseExtrnS_takes (some p.ast) at_ word)
          rintro _ q ⟨before, added, same, rfl, diags, uses, ⟨rfl, read⟩, took⟩
          cases same
          exact again { q with ast := p.ast ++ added } (.extrn read) ⟨took.stderr, rfl, took.entries⟩
        next other' =>
          apply modify_ends
          refine skip_ends (p := p.reporting (.unexpectedToken token.position token.kind)) at_ ?_
          have reads : TopReads p.tok rest [.unexpectedToken token.position token.kind] [] [] := by
            rw [at_]
            exact .unexpected token rest other other'
          exact again _ reads ⟨rfl, (List.append_nil _).symm, fun _ _ => .inl⟩

end Program

theorem parser_took {tokens : List Token} {p : Parser}
    (returned : parser (initParser tokens) = .ok ⟨⟩ p) :
    ∃ uses, ProgramReads tokens p.stderr uses p.ast ∧
      ∀ id name, p.heap.HasKey id name → ∃ token, .name token ∈ uses ∧ SameName (some name) token.lexeme := by
  obtain ⟨diags, uses, nodes, reads, took⟩ := (parserLoop_takes _ (initParser tokens)).of_ok returned
  have empty (id : Nat) (name : Name) : ¬ (initParser tokens).heap.HasKey id name := by
    intro entered
    obtain before | ⟨_, member, -⟩ := (Parser.Took.init { initParser tokens with heap := {} }).entries id name entered
    · obtain ⟨_, stored, -⟩ := before
      cases stored
    · cases member
  refine ⟨uses, ?_, fun id name entered => (took.entries id name entered).resolve_left (empty id name)⟩
  rw [took.stderr, took.ast]
  exact reads

end Trident
