import Trident.Ir.Hopeless
import Trident.Parser.Inverse
import Trident.Parser.Program

/-! A `return` without its expression. The parser takes the semicolon for the
expression, so that it either stops or builds a tree that the generator rejects. -/

set_option autoImplicit false

namespace Trident

open Foundation

/-- A semicolon is no expression, whatever the parser joins to it. -/
theorem ExprText.unfit (text : ExprText) {token : Token} {rest more : List Token}
    (begins : text.tokens ++ more = token :: rest) (kind : token.kind = .semicolon)
    (resolves : CStr → Prop) : ¬ text.tree.Fit resolves := by
  match text with
  | .atom token' =>
      cases begins
      intro fit
      have literal : isKindLiteral token.kind = true := fit.1
      rw [kind] at literal
      cases literal
  | .index token' opened inner closed =>
      cases begins
      intro fit
      have literal : isKindLiteral token.kind = true := fit.2.2.2.2.1
      rw [kind] at literal
      cases literal
  | .call name opened args closed =>
      cases begins
      cases name.2.symm.trans kind
  | .unary op operand =>
      cases begins
      have unary := op.2
      rw [kind] at unary
      cases unary
  | .paren opened inner closed =>
      cases begins
      cases opened.2.symm.trans kind
  | .binary left op right =>
      rw [ExprText.tokens, List.append_assoc] at begins
      exact fun fit => left.unfit begins kind resolves fit.2.1
  termination_by structural text

section Runs

variable {α β : Type} {post : α → Parser → Prop} {p q : Parser}

private theorem returns_of_forall {action : ParseM α}
    (holds : ∀ value q, action p = .ok value q → post value q) : Returns post action p := by
  unfold Returns RunEnds
  split
  · exact holds _ _ ‹_›
  · trivial

private theorem returns_any (action : ParseM α) (p : Parser) : Returns (fun _ _ => True) action p := by
  unfold Returns RunEnds
  split <;> trivial

private theorem returns_of_eq {action action' : ParseM α} (same : action p = action' q)
    (returns : Returns post action' q) : Returns post action p := by
  unfold Returns RunEnds at *
  rwa [same]

/-- The first computation runs as it is known to. -/
private theorem returns_after {first : ParseM β} {next : β → ParseM α} {value : β}
    (run : first p = .ok value q) (returns : Returns post (next value) q) :
    Returns post (first >>= next) p := returns_of_eq (bind_run_of_ok run) returns

end Runs

section Blocks

variable {fuel own made : Nat} {p q : Parser} {tokens rest : List Token} {body : List StmtTree}
  {parent : List Nat}

theorem Inside.reading (inside : Inside own p) (tokens : List Token) : Inside own (p.reading tokens) :=
  ⟨inside.own_lt, inside.lableTab_lt, inside.apart⟩

theorem Inside.grown (inside : Inside own p) (grown : Grown made p q) : Inside own q where
  own_lt := Nat.lt_of_lt_of_le inside.own_lt (grown.next ▸ Nat.le_add_right _ _)
  lableTab_lt := by
    rw [grown.lableTab, grown.next]
    exact Nat.lt_of_lt_of_le inside.lableTab_lt (Nat.le_add_right _ _)
  apart := grown.lableTab ▸ inside.apart

private theorem parseReturnS_bare {word semicolon : Token} (isWord : word.kind = .return_)
    (isSemicolon : semicolon.kind = .semicolon) :
    Returns (fun node _ => node.Hopeless) (parseReturnS fuel) (p.reading (word :: semicolon :: rest)) := by
  apply returns_after (expectAndConsume_run _ _ _ isWord)
  apply RunEnds.bind ((ExprText.sound fuel _).expr precNone)
  rintro _ p' ⟨text, rfl, taken, -⟩
  apply RunEnds.bind (returns_any (expectAndConsume .semicolon) p')
  intro _ _ _
  exact .return_ (text.unfit taken.span.tok.symm isSemicolon)

/-- The statement, which lacks the expression of a `return`, is not read as one that the
generator accepts. -/
def StmtTree.Doomed (stmt : StmtTree) : Prop :=
  ∀ (tokens : List Token) (fuel : Nat) (p : Parser) (rest : List Token) (own : Nat)
    (parent : List Nat) (tail : Option (List AstNode)),
    PrintedAs tokens stmt.print → 3 * tokens.length + 3 ≤ fuel → TablesLive own p → Inside own p →
    Returns (fun result _ => ∃ node, result = (some node, tail) ∧ node.Hopeless)
      (parseStatementsF fuel (own :: parent) own tail) (p.reading (tokens ++ rest))

def BodyDoomed (body : List StmtTree) : Prop :=
  ∀ (tokens : List Token) (fuel : Nat) (p : Parser) (closed : Token) (rest : List Token) (own : Nat)
    (parent : List Nat) (nodes : List AstNode),
    PrintedAs tokens (printBody body) → 3 * tokens.length + 4 ≤ fuel → TablesLive own p →
    Inside own p → closed.kind = .cBrace →
    Returns (fun nodes' _ => SomeHopeless nodes') (parseScopeBody fuel ⟨own, parent⟩ nodes)
      (p.reading (tokens ++ closed :: rest))

def ChainTree.Doomed (chain : ChainTree) : Prop :=
  ∀ (tokens : List Token) (fuel : Nat) (p : Parser) (rest : List Token) (own : Nat)
    (parent : List Nat),
    PrintedAs tokens chain.print → 3 * tokens.length + 1 ≤ fuel → TablesLive own p → Inside own p →
    Returns (fun node _ => ChainHopeless node) (parseIfChain fuel parent) (p.reading (tokens ++ rest))

/-- The new block is a scope with a hopeless statement. -/
def BlockHopeless (node : AstNode) : Prop := ∃ scopeN nodes, node = .scope scopeN nodes ∧ SomeHopeless nodes

private theorem parseBlock_doomed (doomed : BodyDoomed body)
    (printed : PrintedAs tokens (braced (printBody body))) (enough : 3 * tokens.length + 1 ≤ fuel)
    (live : TablesLive own p) (inside : Inside own p) (rest : List Token) (parent : List Nat) :
    Returns (fun node _ => BlockHopeless node) (parseScopeF fuel parent p.heap.next)
      (p.making.reading (tokens ++ rest)) := by
  obtain ⟨opened, inner, closed, rfl, isOpen, isClosed, between⟩ := printed.between
  obtain ⟨fuel, rfl⟩ := Nat.exists_eq_succ_of_ne_zero (Nat.ne_zero_of_lt enough)
  have enough : 3 * inner.length + 4 ≤ fuel := by
    simp at enough
    omega
  have tables : TablesLive p.heap.next p.making :=
    ⟨.init p.heap, (Grown.making p).live _ live.lables⟩
  have made : Inside p.heap.next p.making := inside.made rfl rfl
  rw [List.cons_append, List.append_assoc, List.singleton_append, parseScopeF]
  apply returns_after (expectAndConsume_run _ _ _ isOpen)
  apply RunEnds.bind (doomed inner fuel p.making closed rest _ parent [] between enough tables made isClosed)
  intro nodes q hopeless
  apply RunEnds.bind (returns_any (expectAndConsume .cBrace) q)
  intro _ _ _
  exact ⟨_, nodes, rfl, hopeless⟩

theorem StmtTree.doomed_return : (StmtTree.return_ none).Doomed := by
  intro tokens fuel p rest own parent tail printed enough live inside
  obtain ⟨fuel, rfl⟩ := Nat.exists_eq_succ_of_ne_zero (Nat.ne_zero_of_lt enough)
  obtain ⟨word, _, rfl, isWord, printed⟩ := printed.cons
  obtain ⟨semicolon, _, rfl, isSemicolon, printed⟩ := printed.cons
  cases printed
  apply returns_of_eq (parseStatementsF_at isWord tail)
  apply RunEnds.bind (parseReturnS_bare isWord isSemicolon)
  intro node q hopeless
  exact ⟨node, rfl, hopeless⟩

theorem StmtTree.doomed_scope (doomed : BodyDoomed body) : (StmtTree.scope body).Doomed := by
  intro tokens fuel p rest own parent tail printed enough live inside
  obtain ⟨fuel, rfl⟩ := Nat.exists_eq_succ_of_ne_zero (Nat.ne_zero_of_lt enough)
  have enough : 3 * tokens.length + 1 ≤ fuel := by omega
  have block := parseBlock_doomed doomed printed enough live inside rest (own :: parent)
  obtain ⟨opened, inner, rfl, isOpen, -⟩ := printed.cons
  apply returns_of_eq (parseStatementsF_at isOpen tail)
  apply returns_after (initHashSet_reading ..)
  apply RunEnds.bind block
  rintro _ q ⟨scopeN, nodes, rfl, hopeless⟩
  exact ⟨_, rfl, .scope hopeless⟩

private theorem parseIfS_doomed {condition : ExprTree} {chain : ChainTree}
    (doomed : BodyDoomed body ∨ FullBody body ∧ chain.Doomed)
    (printed : PrintedAs tokens
      (printCondition .if_ condition ++ (braced (printBody body) ++ chain.print)))
    (enough : 3 * tokens.length + 2 ≤ fuel) (live : TablesLive own p) (inside : Inside own p)
    (kind : AstKind) (rest : List Token) (parent : List Nat) :
    Returns (fun node _ => ∃ condition scopeN nodes chain,
        node = (if kind = .if_ then .if_ condition (.scope scopeN nodes) chain
          else .elseIf condition (.scope scopeN nodes) chain) ∧
        (SomeHopeless nodes ∨ ChainHopeless chain))
      (parseIfS fuel kind parent) (p.reading (tokens ++ rest)) := by
  obtain ⟨test, _, rfl, tested, printed⟩ := printed.append
  obtain ⟨block, more, rfl, isBlock, isChain⟩ := printed.append
  obtain ⟨fuel, rfl⟩ := Nat.exists_eq_succ_of_ne_zero (Nat.ne_zero_of_lt enough)
  rw [List.length_append, List.length_append] at enough
  have nonempty : 0 < test.length := by
    obtain ⟨_, _, rfl, -⟩ := tested.cons
    exact Nat.succ_pos _
  have enoughBlock : 3 * block.length + 1 ≤ fuel := by omega
  rw [List.append_assoc, List.append_assoc, parseIfS]
  apply returns_of_eq (condition_run tested (by omega) _)
  apply returns_after (initHashSet_reading ..)
  rcases doomed with body_ | ⟨full, chain_⟩
  · apply RunEnds.bind (parseBlock_doomed body_ isBlock enoughBlock live inside (more ++ rest) parent)
    rintro _ q ⟨scopeN, nodes, rfl, hopeless⟩
    apply RunEnds.bind (returns_any (parseIfChain fuel parent) q)
    intro chain _ _
    exact ⟨_, scopeN, nodes, chain, rfl, .inl hopeless⟩
  · obtain ⟨q, grown, run⟩ := parseBlock_run (bodyParses body full) isBlock enoughBlock live.lables
      (more ++ rest) parent
    apply returns_after run
    apply RunEnds.bind (chain_ more fuel q rest own parent isChain (by omega) (live.grown grown)
      (inside.grown grown))
    intro chain _ hopeless
    exact ⟨_, _, _, chain, rfl, .inr hopeless⟩

theorem StmtTree.doomed_if (condition : ExprTree) {chain : ChainTree}
    (doomed : BodyDoomed body ∨ FullBody body ∧ chain.Doomed) :
    (StmtTree.if_ condition body chain).Doomed := by
  intro tokens fuel p rest own parent tail printed enough live inside
  obtain ⟨fuel, rfl⟩ := Nat.exists_eq_succ_of_ne_zero (Nat.ne_zero_of_lt enough)
  have enough : 3 * tokens.length + 2 ≤ fuel := by omega
  have parsed := parseIfS_doomed doomed printed enough live inside .if_ rest (own :: parent)
  obtain ⟨word, inner, rfl, isWord, -⟩ := printed.cons
  apply returns_of_eq (parseStatementsF_at isWord tail)
  apply RunEnds.bind parsed
  rintro _ q ⟨condition, scopeN, nodes, chain, rfl, hopeless⟩
  exact ⟨_, rfl, .if_ hopeless⟩

theorem StmtTree.doomed_while (condition : ExprTree) (doomed : BodyDoomed body) :
    (StmtTree.while_ condition body).Doomed := by
  intro tokens fuel p rest own parent tail printed enough live inside
  obtain ⟨test, block, rfl, tested, isBlock⟩ := printed.append
  obtain ⟨fuel, rfl⟩ : ∃ less, fuel = less + 2 := ⟨fuel - 2, by omega⟩
  rw [List.length_append] at enough
  have enoughBlock : 3 * block.length + 1 ≤ fuel := by omega
  have parsed : Returns (fun node _ => node.Hopeless) (parseWhileS (fuel + 1) (own :: parent))
      (p.reading (test ++ block ++ rest)) := by
    rw [List.append_assoc, parseWhileS]
    apply returns_after (initHashSet_reading ..)
    apply returns_of_eq (condition_run tested (by omega) _)
    apply RunEnds.bind (parseBlock_doomed doomed isBlock enoughBlock live inside rest (own :: parent))
    rintro _ q ⟨scopeN, nodes, rfl, hopeless⟩
    exact .while_ hopeless
  obtain ⟨word, inner, rfl, isWord, -⟩ := tested.cons
  apply returns_of_eq (parseStatementsF_at isWord tail)
  apply RunEnds.bind parsed
  intro node q hopeless
  exact ⟨node, rfl, hopeless⟩

theorem ChainTree.doomed_elseIf (condition : ExprTree) {chain : ChainTree}
    (doomed : BodyDoomed body ∨ FullBody body ∧ chain.Doomed) :
    (ChainTree.elseIf condition body chain).Doomed := by
  intro tokens fuel p rest own parent printed enough live inside
  obtain ⟨word, inner, rfl, isElse, behind⟩ := printed.cons
  obtain ⟨fuel, rfl⟩ := Nat.exists_eq_succ_of_ne_zero (Nat.ne_zero_of_lt enough)
  have enough : 3 * inner.length + 2 ≤ fuel := by
    simp at enough
    omega
  have parsed := parseIfS_doomed doomed behind enough live inside .elseIf rest parent
  obtain ⟨test, more, rfl, isIf, -⟩ := behind.cons
  rw [List.cons_append, parseIfChain]
  apply returns_after (isKind_run ..)
  rw [isElse]
  apply returns_after (skip_run ..)
  apply returns_after (isKind_run ..)
  rw [isIf]
  apply RunEnds.bind parsed
  rintro _ q ⟨condition, scopeN, nodes, chain, rfl, hopeless⟩
  exact .elseIf hopeless

theorem ChainTree.doomed_else (doomed : BodyDoomed body) : (ChainTree.else_ body).Doomed := by
  intro tokens fuel p rest own parent printed enough live inside
  obtain ⟨word, inner, rfl, isElse, behind⟩ := printed.cons
  obtain ⟨fuel, rfl⟩ := Nat.exists_eq_succ_of_ne_zero (Nat.ne_zero_of_lt enough)
  have enough : 3 * inner.length + 1 ≤ fuel := by
    simp at enough
    omega
  have block := parseBlock_doomed doomed behind enough live inside rest parent
  obtain ⟨opened, more, rfl, isOpen, -⟩ := behind.cons
  rw [List.cons_append, parseIfChain]
  apply returns_after (isKind_run ..)
  rw [isElse]
  apply returns_after (skip_run ..)
  apply returns_after (isKind_run ..)
  rw [isOpen]
  apply returns_after (initHashSet_reading ..)
  apply RunEnds.bind block
  rintro _ q ⟨scopeN, nodes, rfl, hopeless⟩
  exact .else_ hopeless

private theorem bodyDoomed_first {stmt : StmtTree} (doomed : stmt.Doomed) : BodyDoomed (stmt :: body) := by
  intro tokens fuel p closed rest own parent nodes printed enough live inside isClosed
  obtain ⟨head, more, rfl, isHead, isMore⟩ := printed.append
  obtain ⟨fuel, rfl⟩ := Nat.exists_eq_succ_of_ne_zero (Nat.ne_zero_of_lt enough)
  rw [List.length_append] at enough
  have parsed := doomed head fuel p (more ++ closed :: rest) own parent (some nodes) isHead (by omega)
    live inside
  obtain ⟨token, behind, rfl, isOpen, -⟩ := StmtTree.begins isHead
  apply returns_of_forall
  intro nodes' q accepted
  rw [parseScopeBody, List.append_assoc, List.cons_append, bind_run_of_ok (curr_run ..)] at accepted
  dsimp only at accepted
  rw [if_neg isOpen] at accepted
  obtain ⟨⟨statement, tail⟩, p', read, accepted⟩ := bind_eq_ok.mp accepted
  rw [List.cons_append] at parsed
  obtain ⟨node, same, hopeless⟩ := parsed.of_ok read
  cases same
  obtain ⟨_, built, -⟩ := (scopeParsers fuel).statement (inside.reading _) read
  obtain ⟨_, _, added, accepted⟩ := bind_eq_ok.mp accepted
  cases added
  have inside' : Inside (AstScope.mk own parent).symtab p' := built.inside (inside.reading _)
  obtain ⟨news, rfl, -⟩ := (scopeParsers fuel).body inside' accepted
  exact ⟨node, by simp, hopeless⟩

private theorem bodyDoomed_later {stmt : StmtTree} (full : stmt.Full) (doomed : BodyDoomed body) :
    BodyDoomed (stmt :: body) := by
  intro tokens fuel p closed rest own parent nodes printed enough live inside isClosed
  obtain ⟨head, more, rfl, isHead, isMore⟩ := printed.append
  obtain ⟨fuel, rfl⟩ := Nat.exists_eq_succ_of_ne_zero (Nat.ne_zero_of_lt enough)
  rw [List.length_append] at enough
  obtain ⟨q, statement, tail, grown, run, -⟩ := stmt.parses full head fuel p (more ++ closed :: rest)
    own parent nodes isHead (by omega) live (printBody_noElse isMore isClosed rest)
  obtain ⟨token, behind, rfl, isOpen, -⟩ := StmtTree.begins isHead
  rw [List.length_cons] at enough
  rw [List.append_assoc]
  apply returns_of_eq (parseScopeBody_step isOpen run)
  exact doomed more fuel q closed rest own parent _ isMore (by omega) (live.grown grown)
    (inside.grown grown) isClosed

mutual

theorem StmtTree.doomed (stmt : StmtTree) (bare : ¬ stmt.Full) : stmt.Doomed := by
  match stmt with
  | .return_ none => exact StmtTree.doomed_return
  | .return_ (some value) => exact absurd rfl bare
  | .scope body => exact StmtTree.doomed_scope (bodyDoomed body bare)
  | .while_ condition body => exact StmtTree.doomed_while condition (bodyDoomed body bare)
  | .if_ condition body chain =>
      apply StmtTree.doomed_if
      by_cases full : FullBody body
      · exact .inr ⟨full, chain.doomed fun other => bare ⟨full, other⟩⟩
      · exact .inl (bodyDoomed body full)
  | .auto .. | .extrn .. | .goto _ | .lable _ | .expr _ => exact absurd trivial bare
  termination_by structural stmt

theorem ChainTree.doomed (chain : ChainTree) (bare : ¬ chain.Full) : chain.Doomed := by
  match chain with
  | .done => exact absurd trivial bare
  | .elseIf condition body chain =>
      apply ChainTree.doomed_elseIf
      by_cases full : FullBody body
      · exact .inr ⟨full, chain.doomed fun other => bare ⟨full, other⟩⟩
      · exact .inl (bodyDoomed body full)
  | .else_ body => exact ChainTree.doomed_else (bodyDoomed body bare)
  termination_by structural chain

private theorem bodyDoomed (body : List StmtTree) (bare : ¬ FullBody body) : BodyDoomed body := by
  match body with
  | [] => exact absurd trivial bare
  | stmt :: body =>
      by_cases full : stmt.Full
      · exact bodyDoomed_later full (bodyDoomed body fun others => bare ⟨full, others⟩)
      · exact bodyDoomed_first (stmt.doomed full)
  termination_by structural body

end

end Blocks

section Program

variable {fuel : Nat} {p : Parser} {tokens : List Token}

private theorem parseFunctionS_doomed (name : CStr) {params : List Name} {body : List StmtTree}
    (bare : ¬ FullBody body)
    (printed : PrintedAs tokens
      (.mark .oPren :: (printParams params ++ .mark .cPren :: braced (printBody body))))
    (enough : 3 * tokens.length + 2 ≤ fuel) (rest : List Token) :
    Returns (fun node _ => node.HoldsHopeless) (parseFunctionS fuel name) (p.reading (tokens ++ rest)) := by
  obtain ⟨opened, _, rfl, isOpen, printed⟩ := printed.cons
  obtain ⟨names, _, rfl, areNames, printed⟩ := printed.append
  obtain ⟨closed, block, rfl, isClosed, isBlock⟩ := printed.cons
  have enoughNames : names.length + 1 ≤ fuel := by
    simp at enough
    omega
  obtain ⟨q, grown, -, header⟩ :=
    parseFunctionS_header name isOpen areNames isClosed enoughNames (block ++ rest)
  obtain ⟨fuel, rfl⟩ : ∃ less, fuel = less + 1 :=
    Nat.exists_eq_succ_of_ne_zero (Nat.ne_zero_of_lt enoughNames)
  have enoughBlock : 3 * block.length + 1 ≤ fuel := by
    simp at enough
    omega
  have inside : Inside p.heap.next p.entering :=
    ⟨Nat.lt_add_of_pos_right Nat.two_pos, Nat.lt_succ_self (p.heap.next + 1), Nat.succ_ne_self _ |>.symm⟩
  have live : TablesLive p.heap.next p.entering :=
    ⟨(Grown.making p.making).live _ (.init p.heap), .init p.making.heap⟩
  have body := parseBlock_doomed (bodyDoomed body bare) isBlock enoughBlock (live.grown grown)
    (inside.grown grown) rest [p.heap.next, p.globalTable]
  obtain ⟨brace, behind, rfl, isBrace, -⟩ := isBlock.cons
  rw [List.cons_append, List.append_assoc, List.cons_append]
  apply returns_of_eq header
  have parsed : Returns (fun result _ => ∃ node, result = (some node, none) ∧ BlockHopeless node)
      (parseStatementsF (fuel + 1) [p.heap.next, p.globalTable] p.heap.next none)
      (q.reading (brace :: behind ++ rest)) := by
    apply returns_of_eq (parseStatementsF_at isBrace none)
    apply returns_after (initHashSet_reading ..)
    apply RunEnds.bind body
    intro node _ hopeless
    exact ⟨node, rfl, hopeless⟩
  apply RunEnds.bind parsed
  rintro _ _ ⟨_, rfl, scopeN, nodes, rfl, hopeless⟩
  exact hopeless

/-- The loop of `parser` does not get past a function with a bare `return`, or leaves it
hopeless. -/
private theorem parserLoop_doomed {program : List TopTree} (bare : ¬ FullProgram program)
    (printed : PrintedAs tokens (printProgram program)) (enough : 3 * tokens.length + 3 ≤ fuel)
    (live : p.heap.Live p.globalTable) :
    Returns (fun _ p' => ∃ node ∈ p'.ast, node.HoldsHopeless) (parserLoop fuel) (p.reading tokens) := by
  induction program generalizing tokens fuel p with
  | nil => exact absurd (fun _ member => nomatch member) bare
  | cons top program ih =>
      obtain ⟨head, more, rfl, isHead, isMore⟩ := printed.append
      obtain ⟨fuel, rfl⟩ := Nat.exists_eq_succ_of_ne_zero (Nat.ne_zero_of_lt enough)
      rw [List.length_append] at enough
      by_cases full : top.Full
      · have nonempty : 0 < head.length := by
          cases top <;> obtain ⟨_, _, rfl, -⟩ := isHead.cons <;> exact Nat.succ_pos _
        obtain ⟨q, appended, -, run⟩ := top.parses full head fuel p more isHead (by omega) live
        have live' : q.heap.Live q.globalTable := appended.globalTable ▸ appended.live _ live
        have enough : 3 * more.length + 3 ≤ fuel := by omega
        apply returns_of_eq run
        exact ih (fun others => bare (List.forall_mem_cons.mpr ⟨full, others⟩)) isMore enough live'
      · cases top with
        | globals | extrn => exact absurd trivial full
        | function name params body =>
            obtain ⟨word, others, rfl, ⟨isName, lexeme⟩, behind⟩ := isHead.cons
            have enough : 3 * others.length + 2 ≤ fuel := by
              simp at enough
              omega
            have parsed := parseFunctionS_doomed (p := p) word.lexeme full behind enough more
            obtain ⟨opened, inner, rfl, isOpen, -⟩ := behind.cons
            apply returns_of_forall
            intro u p' accepted
            rw [List.cons_append, List.cons_append, parserLoop,
              bind_run_of_ok (curr_run ..)] at accepted
            dsimp only at accepted
            rw [if_pos isName, bind_run_of_ok (skip_run ..), bind_run_of_ok (tokField_run ..),
              if_pos (show opened.kind = .oPren from isOpen)] at accepted
            obtain ⟨node, q, read, accepted⟩ := bind_eq_ok.mp accepted
            obtain ⟨_, q', added, accepted⟩ := bind_eq_ok.mp accepted
            cases added
            have kept := (parserLoop_precedes accepted).ast
            exact ⟨node, kept.subset (by simp), parsed.of_ok read⟩

/-- A program with a bare `return` is parsed to a tree that the generator rejects, if at all. -/
theorem parser_doomed {program : List TopTree} (bare : ¬ FullProgram program)
    (printed : PrintedAs tokens (printProgram program)) :
    Returns (fun _ p => ∀ module, Never (genIr module p.ast)) parser (initParser tokens) := by
  have live : (initParser tokens).heap.Live (initParser tokens).globalTable := .init {}
  have enough : 3 * tokens.length + 3 ≤ parserFuel tokens.length := by
    rw [parserFuel]
    omega
  have run : parser (initParser tokens) = parserLoop (parserFuel tokens.length) (initParser tokens) := rfl
  apply returns_of_eq run
  apply RunEnds.mono (parserLoop_doomed bare printed enough live)
  · intro _ p hopeless module
    exact genIr_never hopeless
  · intros
    trivial

end Program

end Trident
