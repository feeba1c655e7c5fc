import Trident.Parser.Program
import Trident.Parser.Reading

/-! Statements of any nesting and whole programs are read back as the nodes of their
trees. -/

set_option autoImplicit false

namespace Trident

open Foundation

/-! Statements, by induction on their tree. -/

section Statements

/-- No `else` follows. -/
def NoElse (rest : List Token) : Prop := ∀ next ∈ rest.head?, next.kind ≠ .else_

/-- `parse_statements_f` reads the statement and appends its nodes, or leaves the only one
to its caller. -/
def StmtTree.Parses (stmt : StmtTree) : Prop :=
  ∀ (tokens : List Token) (fuel : Nat) (p : Parser) (rest : List Token) (own : Nat)
    (parent : List Nat) (body : List AstNode),
    PrintedAs tokens stmt.print → 3 * tokens.length + 3 ≤ fuel → TablesLive own p → NoElse rest →
    ∃ q statement tail, Grown stmt.scopes p q ∧
      parseStatementsF fuel (own :: parent) own (some body) (p.reading (tokens ++ rest)) =
        .ok (statement, some tail) (q.reading rest) ∧
      tail ++ statement.toList = body ++ stmt.nodes (own :: parent) p.heap.next

/-- The loop of `parse_scope_f` reads the statements up to the closing brace. -/
def BodyParses (body : List StmtTree) : Prop :=
  ∀ (tokens : List Token) (fuel : Nat) (p : Parser) (closed : Token) (rest : List Token) (own : Nat)
    (parent : List Nat) (nodes : List AstNode),
    PrintedAs tokens (printBody body) → 3 * tokens.length + 4 ≤ fuel → TablesLive own p →
    closed.kind = .cBrace →
    ∃ q, Grown (bodyScopes body) p q ∧
      parseScopeBody fuel ⟨own, parent⟩ nodes (p.reading (tokens ++ closed :: rest)) =
        .ok (nodes ++ bodyNodes (own :: parent) p.heap.next body) (q.reading (closed :: rest))

def ChainTree.Parses (chain : ChainTree) : Prop :=
  ∀ (tokens : List Token) (fuel : Nat) (p : Parser) (rest : List Token) (parent : List Nat),
    PrintedAs tokens chain.print → 3 * tokens.length + 1 ≤ fuel → p.heap.Live p.tLableTab →
    NoElse rest →
    ∃ q, Grown chain.scopes p q ∧
      parseIfChain fuel parent (p.reading (tokens ++ rest)) =
        .ok (chain.node parent p.heap.next) (q.reading rest)

variable {fuel own : Nat} {p : Parser} {tokens rest : List Token} {body : List StmtTree}
  {parent : List Nat}

private theorem parseScopeF_run (parses : BodyParses body) (printed : PrintedAs tokens (braced (printBody body)))
    (enough : 3 * tokens.length + 1 ≤ fuel) (ready : TablesLive own p) :
    ∃ q, Grown (bodyScopes body) p q ∧
      parseScopeF fuel parent own (p.reading (tokens ++ rest)) =
        .ok (.scope ⟨own, parent⟩ (bodyNodes (own :: parent) p.heap.next body)) (q.reading rest) := by
  obtain ⟨opened, inner, closed, rfl, isOpen, isClosed, inside⟩ := printed.between
  obtain ⟨fuel, rfl⟩ := Nat.exists_eq_succ_of_ne_zero (Nat.ne_zero_of_lt enough)
  have enough : 3 * inner.length + 4 ≤ fuel := by
    simp at enough
    omega
  obtain ⟨q, grown, run⟩ := parses inner fuel p closed rest own parent [] inside enough ready isClosed
  refine ⟨q, grown, ?_⟩
  rw [List.cons_append, List.append_assoc, List.singleton_append, parseScopeF,
    bind_run_of_ok (expectAndConsume_run _ _ _ isOpen), bind_run_of_ok run,
    bind_run_of_ok (expectAndConsume_run _ _ _ isClosed)]
  rfl

/-- A block with a hash set that was just made. -/
theorem parseBlock_run (parses : BodyParses body) (printed : PrintedAs tokens (braced (printBody body)))
    (enough : 3 * tokens.length + 1 ≤ fuel) (lables : p.heap.Live p.tLableTab) (rest : List Token)
    (parent : List Nat) :
    ∃ q, Grown (1 + bodyScopes body) p q ∧
      parseScopeF fuel parent p.heap.next (p.making.reading (tokens ++ rest)) =
        .ok (.scope ⟨p.heap.next, parent⟩ (bodyNodes (p.heap.next :: parent) (p.heap.next + 1) body))
          (q.reading rest) := by
  have ready : TablesLive p.heap.next p.making := ⟨.init p.heap, (Grown.making p).live _ lables⟩
  obtain ⟨q, grown, run⟩ := parseScopeF_run parses printed enough ready
  exact ⟨q, (Grown.making p).trans grown, run⟩

/-- The statement is parsed once its first token has been looked at. -/
theorem parseStatementsF_at {token : Token} {kind : TokenKind} (is : token.kind = kind)
    (tail : Option (List AstNode)) :
    parseStatementsF (fuel + 1) parent own tail (p.reading (token :: rest)) =
      (match kind with
        | .auto => do return (none, ← parseAutoS fuel own tail)
        | .extrn => do return (none, ← parseExtrnS fuel tail)
        | .goto => do return (some (← parseGotoS), tail)
        | .oBrace => do
            let symtab ← initHashSet
            return (some (← parseScopeF fuel parent symtab), tail)
        | .return_ => do return (some (← parseReturnS fuel), tail)
        | .if_ => do return (some (← parseIfS fuel .if_ parent), tail)
        | .while_ => do return (some (← parseWhileS fuel parent), tail)
        | .identifier =>
            if rest.head?.any fun (next : Token) => next.kind == TokenKind.colon then do return (some (← parseLableS), tail)
            else do return (← parseExprS fuel, tail)
        | _ => do return (← parseExprS fuel, tail)) (p.reading (token :: rest)) := by
  subst is
  rfl

theorem StmtTree.parses_auto (first : Declared) (more : List Declared) :
    (StmtTree.auto first more).Parses := by
  intro tokens fuel p rest own parent body printed enough ready _
  obtain ⟨word, inner, semicolon, rfl, isWord, isSemicolon, inside⟩ := printed.between
  obtain ⟨fuel, rfl⟩ := Nat.exists_eq_succ_of_ne_zero (Nat.ne_zero_of_lt enough)
  have enough : inner.length ≤ fuel := by
    simp at enough
    omega
  obtain ⟨q, grown, run⟩ := parseAutoLoop_run inside enough ready.own isSemicolon body
  refine ⟨q, none, _, grown, ?_, List.append_nil _⟩
  rw [List.cons_append, List.append_assoc, List.singleton_append, parseStatementsF_at isWord]
  change (parseAutoS fuel own (some body) >>= _ : ParseM _) _ = _
  rw [parseAutoS, bind_assoc, bind_run_of_ok (expectAndConsume_run _ _ _ isWord), bind_assoc,
    bind_run_of_ok run, bind_assoc, bind_run_of_ok (expectAndConsume_run _ _ _ isSemicolon)]
  rfl

private theorem parseExtrnS_run {first : Name} {more : List Name}
    (printed : PrintedAs tokens (.mark .extrn :: (commaList printName first more ++ [.mark .semicolon])))
    (enough : tokens.length ≤ fuel) (nodes : List AstNode) :
    parseExtrnS fuel (some nodes) (p.reading (tokens ++ rest)) =
      .ok (some (nodes ++ (first :: more).map externNode)) (p.reading rest) := by
  obtain ⟨word, inner, semicolon, rfl, isWord, isSemicolon, inside⟩ := printed.between
  have enough : inner.length ≤ fuel := by
    simp at enough
    omega
  rw [List.cons_append, List.append_assoc, List.singleton_append, parseExtrnS,
    bind_run_of_ok (expectAndConsume_run _ _ _ isWord),
    bind_run_of_ok (parseExtrnLoop_run inside enough isSemicolon nodes),
    bind_run_of_ok (expectAndConsume_run _ _ _ isSemicolon)]
  rfl

theorem StmtTree.parses_extrn (first : Name) (more : List Name) :
    (StmtTree.extrn first more).Parses := by
  intro tokens fuel p rest own parent body printed enough ready _
  obtain ⟨fuel, rfl⟩ := Nat.exists_eq_succ_of_ne_zero (Nat.ne_zero_of_lt enough)
  have run : parseExtrnS fuel (some body) (p.reading (tokens ++ rest)) = .ok _ (p.reading rest) :=
    parseExtrnS_run printed (by omega) body
  refine ⟨p, none, _, .refl p, ?_, List.append_nil _⟩
  obtain ⟨word, inner, rfl, isWord, -⟩ := printed.cons
  rw [List.cons_append, parseStatementsF_at isWord]
  change (parseExtrnS fuel (some body) >>= _ : ParseM _) _ = _
  rw [← List.cons_append, bind_run_of_ok run]
  rfl

theorem StmtTree.parses_goto (name : Name) : (StmtTree.goto name).Parses := by
  intro tokens fuel p rest own parent body printed enough ready _
  obtain ⟨fuel, rfl⟩ := Nat.exists_eq_succ_of_ne_zero (Nat.ne_zero_of_lt enough)
  obtain ⟨word, _, rfl, isWord, printed⟩ := printed.cons
  obtain ⟨target, _, rfl, ⟨isName, lexeme⟩, printed⟩ := printed.cons
  obtain ⟨semicolon, _, rfl, isSemicolon, printed⟩ := printed.cons
  cases printed
  refine ⟨p, some (.goto (some name)), body, .refl p, ?_, rfl⟩
  rw [List.cons_append, parseStatementsF_at isWord]
  change (parseGotoS >>= _ : ParseM _) _ = _
  rw [parseGotoS, bind_assoc, bind_run_of_ok (expectAndConsume_run _ _ _ isWord), bind_assoc,
    List.cons_append, bind_run_of_ok (tokField_run ..), lexeme, bind_assoc,
    bind_run_of_ok (skip_run ..), bind_assoc, List.singleton_append,
    bind_run_of_ok (expectAndConsume_run _ _ _ isSemicolon)]
  rfl

theorem StmtTree.parses_lable (name : Name) : (StmtTree.lable name).Parses := by
  intro tokens fuel p rest own parent body printed enough ready _
  obtain ⟨fuel, rfl⟩ := Nat.exists_eq_succ_of_ne_zero (Nat.ne_zero_of_lt enough)
  obtain ⟨target, _, rfl, ⟨isName, lexeme⟩, printed⟩ := printed.cons
  obtain ⟨colon, _, rfl, isColon, printed⟩ := printed.cons
  cases printed
  obtain ⟨q, grown, put⟩ :=
    putToHashSet_run ready.lables name { kind := .lableS } (target :: colon :: rest)
  refine ⟨q, some (.lable (some name)), body, grown, ?_, rfl⟩
  have found : ((colon :: rest).head?.any fun next => next.kind == .colon) = true :=
    beq_iff_eq.mpr isColon
  rw [List.cons_append, List.singleton_append, parseStatementsF_at isName]
  change (if (colon :: rest).head?.any fun next => next.kind == .colon then _ else _ : ParseM _) _ = _
  rw [if_pos found, parseLableS, bind_assoc, bind_run_of_ok (tokField_run ..), lexeme, bind_assoc,
    bind_run_of_ok (get_run _), bind_assoc]
  change (putToHashSet p.tLableTab (some name) { kind := .lableS } >>= _ : ParseM _) _ = _
  rw [bind_run_of_ok put, bind_assoc, bind_run_of_ok (skip_run ..), bind_assoc,
    bind_run_of_ok (skip_run ..)]
  rfl

theorem StmtTree.parses_return (value : ExprTree) : (StmtTree.return_ (some value)).Parses := by
  intro tokens fuel p rest own parent body printed enough ready _
  obtain ⟨word, inner, semicolon, rfl, isWord, isSemicolon, inside⟩ := printed.between
  obtain ⟨fuel, rfl⟩ := Nat.exists_eq_succ_of_ne_zero (Nat.ne_zero_of_lt enough)
  have enough : 3 * inner.length + 1 ≤ fuel := by
    simp at enough
    omega
  have closes : getOpPrec semicolon.kind = precNone := by
    rw [isSemicolon]
    rfl
  refine ⟨p, some (.return_ (some value.lowered)), body, .refl p, ?_, rfl⟩
  rw [List.cons_append, List.append_assoc, List.singleton_append, parseStatementsF_at isWord]
  change (parseReturnS fuel >>= _ : ParseM _) _ = _
  rw [parseReturnS, bind_assoc, bind_run_of_ok (expectAndConsume_run _ _ _ isWord), bind_assoc,
    bind_run_of_ok (value.parses inside enough closes), bind_assoc,
    bind_run_of_ok (expectAndConsume_run _ _ _ isSemicolon)]
  rfl

theorem StmtTree.parses_expr (value : ExprTree) : (StmtTree.expr value).Parses := by
  intro tokens fuel p rest own parent body printed enough ready _
  obtain ⟨inner, _, rfl, inside, printed⟩ := printed.append
  obtain ⟨semicolon, _, rfl, isSemicolon, printed⟩ := printed.cons
  cases printed
  obtain ⟨fuel, rfl⟩ := Nat.exists_eq_succ_of_ne_zero (Nat.ne_zero_of_lt enough)
  have enough : 3 * inner.length + 1 ≤ fuel := by
    simp at enough
    omega
  refine ⟨p, some (.expr value.lowered), body, .refl p, ?_, rfl⟩
  rw [List.append_assoc, List.singleton_append,
    parseStatementsF_expr (ExprTree.begins inside isSemicolon rest),
    bind_run_of_ok (parseExprS_run inside enough isSemicolon)]
  rfl

private theorem parseStatementsF_brace {opened : Token} {more : List Token} {node : AstNode} {q : Parser}
    (isOpen : opened.kind = .oBrace) (tail : Option (List AstNode)) (own : Nat)
    (run : parseScopeF fuel parent p.heap.next (p.making.reading (opened :: more)) =
      .ok node (q.reading rest)) :
    parseStatementsF (fuel + 1) parent own tail (p.reading (opened :: more)) =
      .ok (some node, tail) (q.reading rest) := by
  rw [parseStatementsF_at isOpen]
  change (initHashSet >>= _ : ParseM _) _ = _
  rw [bind_run_of_ok (initHashSet_reading ..), bind_run_of_ok run]
  rfl

theorem StmtTree.parses_scope (parses : BodyParses body) : (StmtTree.scope body).Parses := by
  intro tokens fuel p rest own parent nodes printed enough ready _
  obtain ⟨fuel, rfl⟩ := Nat.exists_eq_succ_of_ne_zero (Nat.ne_zero_of_lt enough)
  have enough : 3 * tokens.length + 1 ≤ fuel := by omega
  obtain ⟨q, grown, run⟩ := parseBlock_run parses printed enough ready.lables rest (own :: parent)
  refine ⟨q, some (.scope ⟨p.heap.next, own :: parent⟩ (bodyNodes _ _ body)), nodes, grown, ?_, rfl⟩
  obtain ⟨opened, inner, rfl, isOpen, -⟩ := printed.cons
  exact parseStatementsF_brace isOpen (some nodes) own run

/-- The branch of an `if` with what follows it. -/
private theorem parseIfS_run {condition : ExprTree} {chain : ChainTree} (parses : BodyParses body)
    (others : chain.Parses)
    (printed : PrintedAs tokens
      (printCondition .if_ condition ++ (braced (printBody body) ++ chain.print)))
    (enough : 3 * tokens.length + 2 ≤ fuel) (lables : p.heap.Live p.tLableTab) (last : NoElse rest)
    (kind : AstKind) (parent : List Nat) :
    ∃ q, Grown (1 + bodyScopes body + chain.scopes) p q ∧
      parseIfS fuel kind parent (p.reading (tokens ++ rest)) =
        .ok (if kind = .if_
            then .if_ condition.lowered
              (.scope ⟨p.heap.next, parent⟩ (bodyNodes (p.heap.next :: parent) (p.heap.next + 1) body))
              (chain.node parent (p.heap.next + 1 + bodyScopes body))
            else .elseIf condition.lowered
              (.scope ⟨p.heap.next, parent⟩ (bodyNodes (p.heap.next :: parent) (p.heap.next + 1) body))
              (chain.node parent (p.heap.next + 1 + bodyScopes body)))
          (q.reading rest) := by
  obtain ⟨test, _, rfl, tested, printed⟩ := printed.append
  obtain ⟨block, more, rfl, isBlock, isChain⟩ := printed.append
  obtain ⟨fuel, rfl⟩ := Nat.exists_eq_succ_of_ne_zero (Nat.ne_zero_of_lt enough)
  rw [List.length_append, List.length_append] at enough
  have nonempty : 0 < test.length := by
    obtain ⟨_, _, rfl, -⟩ := tested.cons
    exact Nat.succ_pos _
  have enoughBlock : 3 * block.length + 1 ≤ fuel := by omega
  obtain ⟨q, grown, run⟩ := parseBlock_run parses isBlock enoughBlock lables (more ++ rest) parent
  have lables' : q.heap.Live q.tLableTab := grown.lableTab ▸ grown.live _ lables
  obtain ⟨r, grown', run'⟩ := others more fuel q rest parent isChain (by omega) lables' last
  refine ⟨r, grown.trans grown', ?_⟩
  rw [grown.next, ← Nat.add_assoc] at run'
  rw [List.append_assoc, List.append_assoc, parseIfS, condition_run tested (by omega),
    bind_run_of_ok (initHashSet_reading ..), bind_run_of_ok run, bind_run_of_ok run']
  rfl

theorem StmtTree.parses_if (condition : ExprTree) {chain : ChainTree} (parses : BodyParses body)
    (others : chain.Parses) : (StmtTree.if_ condition body chain).Parses := by
  intro tokens fuel p rest own parent nodes printed enough ready last
  obtain ⟨fuel, rfl⟩ := Nat.exists_eq_succ_of_ne_zero (Nat.ne_zero_of_lt enough)
  have enough : 3 * tokens.length + 2 ≤ fuel := by omega
  obtain ⟨q, grown, run⟩ :=
    parseIfS_run parses others printed enough ready.lables last .if_ (own :: parent)
  refine ⟨q, some (.if_ _ _ _), nodes, grown, ?_, rfl⟩
  obtain ⟨word, inner, rfl, isWord, -⟩ := printed.cons
  rw [List.cons_append, parseStatementsF_at isWord]
  change (parseIfS fuel .if_ (own :: parent) >>= _ : ParseM _) _ = _
  rw [← List.cons_append, bind_run_of_ok run]
  rfl

private theorem parseWhileS_run {condition : ExprTree} (parses : BodyParses body)
    (printed : PrintedAs tokens (printCondition .while_ condition ++ braced (printBody body)))
    (enough : 3 * tokens.length + 2 ≤ fuel) (lables : p.heap.Live p.tLableTab) (parent : List Nat) :
    ∃ q, Grown (1 + bodyScopes body) p q ∧
      parseWhileS fuel parent (p.reading (tokens ++ rest)) =
        .ok (.while_ condition.lowered
          (.scope ⟨p.heap.next, parent⟩ (bodyNodes (p.heap.next :: parent) (p.heap.next + 1) body)))
          (q.reading rest) := by
  obtain ⟨test, block, rfl, tested, isBlock⟩ := printed.append
  obtain ⟨fuel, rfl⟩ := Nat.exists_eq_succ_of_ne_zero (Nat.ne_zero_of_lt enough)
  rw [List.length_append] at enough
  have enoughBlock : 3 * block.length + 1 ≤ fuel := by omega
  obtain ⟨q, grown, run⟩ := parseBlock_run parses isBlock enoughBlock lables rest parent
  refine ⟨q, grown, ?_⟩
  rw [List.append_assoc, parseWhileS, bind_run_of_ok (initHashSet_reading ..),
    condition_run tested (by omega), bind_run_of_ok run]
  rfl

theorem StmtTree.parses_while (condition : ExprTree) (parses : BodyParses body) :
    (StmtTree.while_ condition body).Parses := by
  intro tokens fuel p rest own parent nodes printed enough ready _
  obtain ⟨fuel, rfl⟩ := Nat.exists_eq_succ_of_ne_zero (Nat.ne_zero_of_lt enough)
  have enough : 3 * tokens.length + 2 ≤ fuel := by omega
  obtain ⟨q, grown, run⟩ := parseWhileS_run parses printed enough ready.lables (own :: parent)
  refine ⟨q, some (.while_ _ _), nodes, grown, ?_, rfl⟩
  obtain ⟨word, inner, rfl, isWord, -⟩ := printed.cons
  rw [List.cons_append, parseStatementsF_at isWord]
  change (parseWhileS fuel (own :: parent) >>= _ : ParseM _) _ = _
  rw [← List.cons_append, bind_run_of_ok run]
  rfl

theorem ChainTree.parses_done : ChainTree.done.Parses := by
  intro tokens fuel p rest parent printed enough lables last
  cases printed
  obtain ⟨fuel, rfl⟩ := Nat.exists_eq_succ_of_ne_zero (Nat.ne_zero_of_lt enough)
  have noElse : isKind .else_ (p.reading rest) = .ok false (p.reading rest) := by
    cases rest with
    | nil => rfl
    | cons next rest => rw [isKind_run, beq_false_of_ne (last next rfl)]
  refine ⟨p, .refl p, ?_⟩
  rw [List.nil_append, parseIfChain, bind_run_of_ok noElse]
  rfl

theorem ChainTree.parses_elseIf (condition : ExprTree) {chain : ChainTree} (parses : BodyParses body)
    (others : chain.Parses) : (ChainTree.elseIf condition body chain).Parses := by
  intro tokens fuel p rest parent printed enough lables last
  obtain ⟨word, inner, rfl, isElse, behind⟩ := printed.cons
  obtain ⟨fuel, rfl⟩ := Nat.exists_eq_succ_of_ne_zero (Nat.ne_zero_of_lt enough)
  have enough : 3 * inner.length + 2 ≤ fuel := by
    simp at enough
    omega
  obtain ⟨q, grown, run⟩ := parseIfS_run parses others behind enough lables last .elseIf parent
  refine ⟨q, grown, ?_⟩
  obtain ⟨test, more, rfl, isIf, -⟩ := behind.cons
  rw [List.cons_append, parseIfChain, bind_run_of_ok (isKind_run ..), isElse]
  change (discard pconsume >>= _ : ParseM _) _ = _
  rw [bind_run_of_ok (skip_run ..), List.cons_append, bind_run_of_ok (isKind_run ..), isIf]
  change (parseIfS fuel .elseIf parent >>= _ : ParseM _) _ = _
  rw [← List.cons_append, bind_run_of_ok run]
  rfl

theorem ChainTree.parses_else (parses : BodyParses body) : (ChainTree.else_ body).Parses := by
  intro tokens fuel p rest parent printed enough lables last
  obtain ⟨word, inner, rfl, isElse, behind⟩ := printed.cons
  obtain ⟨fuel, rfl⟩ := Nat.exists_eq_succ_of_ne_zero (Nat.ne_zero_of_lt enough)
  have enough : 3 * inner.length + 1 ≤ fuel := by
    simp at enough
    omega
  obtain ⟨q, grown, run⟩ := parseBlock_run parses behind enough lables rest parent
  refine ⟨q, grown, ?_⟩
  obtain ⟨opened, more, rfl, isOpen, -⟩ := behind.cons
  rw [List.cons_append, parseIfChain, bind_run_of_ok (isKind_run ..), isElse]
  change (discard pconsume >>= _ : ParseM _) _ = _
  rw [bind_run_of_ok (skip_run ..), List.cons_append, bind_run_of_ok (isKind_run ..), isOpen]
  change (initHashSet >>= _ : ParseM _) _ = _
  rw [bind_run_of_ok (initHashSet_reading ..), ← List.cons_append, bind_run_of_ok run]
  rfl

/-- A statement begins neither with a closing brace nor with `else`. -/
theorem StmtTree.begins {stmt : StmtTree} (printed : PrintedAs tokens stmt.print) :
    ∃ token more, tokens = token :: more ∧ token.kind ≠ .cBrace ∧ token.kind ≠ .else_ := by
  cases stmt with
  | expr value =>
      obtain ⟨inner, _, rfl, inside, printed⟩ := printed.append
      obtain ⟨semicolon, rest, rfl, isSemicolon, -⟩ := printed.cons
      obtain ⟨token, more, same, starts, -⟩ := ExprTree.begins inside isSemicolon rest
      refine ⟨token, more, same, ?_, ?_⟩ <;>
        (intro kind; rw [kind] at starts; revert starts; decide)
  | lable name =>
      obtain ⟨token, more, rfl, ⟨kind, -⟩, -⟩ := printed.cons
      refine ⟨token, more, rfl, ?_, ?_⟩ <;> (rw [kind]; decide)
  | _ =>
      obtain ⟨token, more, rfl, kind, -⟩ := printed.cons
      refine ⟨token, more, rfl, ?_, ?_⟩ <;> (rw [show token.kind = _ from kind]; decide)

theorem printBody_noElse {closed : Token} (printed : PrintedAs tokens (printBody body))
    (isClosed : closed.kind = .cBrace) (rest : List Token) : NoElse (tokens ++ closed :: rest) := by
  cases body with
  | nil =>
      cases printed
      intro next found
      cases found
      rw [isClosed]
      decide
  | cons stmt body =>
      obtain ⟨head, more, rfl, isHead, -⟩ := printed.append
      obtain ⟨token, behind, rfl, -, noElse⟩ := StmtTree.begins isHead
      intro next found
      cases found
      exact noElse

private theorem bodyParses_nil : BodyParses [] := by
  intro tokens fuel p closed rest own parent nodes printed enough ready isClosed
  cases printed
  obtain ⟨fuel, rfl⟩ := Nat.exists_eq_succ_of_ne_zero (Nat.ne_zero_of_lt enough)
  refine ⟨p, .refl p, ?_⟩
  rw [List.nil_append, parseScopeBody, bind_run_of_ok (curr_run ..)]
  dsimp only
  rw [if_pos isClosed, bodyNodes, List.append_nil]
  rfl

/-- The loop of `parse_scope_f` appends what one statement leaves. -/
theorem parseScopeBody_step {token : Token} {more : List Token} {statement : Option AstNode}
    {nodes tail : List AstNode} {q : Parser} (isOpen : token.kind ≠ .cBrace)
    (run : parseStatementsF fuel (own :: parent) own (some nodes) (p.reading (token :: more)) =
      .ok (statement, some tail) (q.reading rest)) :
    parseScopeBody (fuel + 1) ⟨own, parent⟩ nodes (p.reading (token :: more)) =
      parseScopeBody fuel ⟨own, parent⟩ (tail ++ statement.toList) (q.reading rest) := by
  rw [parseScopeBody, bind_run_of_ok (curr_run ..)]
  dsimp only
  rw [if_neg isOpen, AstScope.chain, bind_run_of_ok run]
  cases statement with
  | none => simp
  | some node => rfl

private theorem bodyParses_cons {stmt : StmtTree} (first : stmt.Parses) (others : BodyParses body) :
    BodyParses (stmt :: body) := by
  intro tokens fuel p closed rest own parent nodes printed enough ready isClosed
  obtain ⟨head, more, rfl, isHead, isMore⟩ := printed.append
  obtain ⟨fuel, rfl⟩ := Nat.exists_eq_succ_of_ne_zero (Nat.ne_zero_of_lt enough)
  rw [List.length_append] at enough
  obtain ⟨q, statement, tail, grown, run, appended⟩ := first head fuel p (more ++ closed :: rest) own
    parent nodes isHead (by omega) ready (printBody_noElse isMore isClosed rest)
  obtain ⟨token, behind, rfl, isOpen, -⟩ := StmtTree.begins isHead
  rw [List.length_cons] at enough
  obtain ⟨r, grown', run'⟩ := others more fuel q closed rest own parent
    (tail ++ statement.toList) isMore (by omega) (ready.grown grown) isClosed
  refine ⟨r, grown.trans grown', ?_⟩
  rw [List.append_assoc, List.cons_append]
  rw [List.cons_append] at run
  rw [parseScopeBody_step isOpen run, run', appended, grown.next, bodyNodes, List.append_assoc]

mutual

theorem StmtTree.parses (stmt : StmtTree) (full : stmt.Full) : stmt.Parses := by
  match stmt with
  | .scope body => exact StmtTree.parses_scope (bodyParses body full)
  | .auto first more => exact StmtTree.parses_auto first more
  | .extrn first more => exact StmtTree.parses_extrn first more
  | .goto name => exact StmtTree.parses_goto name
  | .lable name => exact StmtTree.parses_lable name
  | .return_ (some value) => exact StmtTree.parses_return value
  | .if_ condition body chain =>
      exact StmtTree.parses_if condition (bodyParses body full.1) (chain.parses full.2)
  | .while_ condition body => exact StmtTree.parses_while condition (bodyParses body full)
  | .expr value => exact StmtTree.parses_expr value
  termination_by structural stmt

theorem ChainTree.parses (chain : ChainTree) (full : chain.Full) : chain.Parses := by
  match chain with
  | .done => exact ChainTree.parses_done
  | .elseIf condition body chain =>
      exact ChainTree.parses_elseIf condition (bodyParses body full.1) (chain.parses full.2)
  | .else_ body => exact ChainTree.parses_else (bodyParses body full)
  termination_by structural chain

theorem bodyParses (body : List StmtTree) (full : FullBody body) : BodyParses body := by
  match body with
  | [] => exact bodyParses_nil
  | stmt :: body =>
      exact bodyParses_cons (stmt.parses full.1) (bodyParses body full.2)
  termination_by structural body

end

end Statements

/-! Functions and the program, with the tables that they fill. -/

section Program

variable {fuel : Nat} {p : Parser} {tokens rest : List Token}

/-- The context for a new function, with a set for its parameters and one for its labels. -/
def Parser.entering (p : Parser) : Parser :=
  { p.making.making with tLableTab := p.heap.next + 1 }

theorem Appended.entering (p : Parser) : Appended 2 [] p p.entering :=
  let made := (Grown.making p).appended.trans (Grown.making p.making).appended
  ⟨made.next, made.live, made.globalTable, made.ast, made.stderr⟩

/-- A function up to its body. -/
theorem parseFunctionS_header (name : CStr) {params : List Name} {opened closed : Token}
    {names : List Token} (isOpen : opened.kind = .oPren) (areNames : PrintedAs names (printParams params))
    (isClosed : closed.kind = .cPren) (enough : names.length + 1 ≤ fuel) (more : List Token) :
    ∃ q, Grown 0 p.entering q ∧ q.heap.Keys p.heap.next (Names (params.map some)) ∧
      parseFunctionS fuel name (p.reading (opened :: (names ++ closed :: more))) =
        (do
          let (statement, _) ← parseStatementsF fuel [p.heap.next, p.globalTable] p.heap.next none
          match statement with
          | some body => return .function name p.heap.next (p.heap.next + 1) params.length body
          | none => throw (.fault .nullNode) : ParseM AstNode) (q.reading more) := by
  have live : p.entering.heap.Live p.heap.next := (Grown.making p.making).live _ (.init p.heap)
  obtain ⟨q, grown, held, run⟩ := parseParams_run areNames enough live isClosed more 0
  have empty : p.entering.heap.Keys p.heap.next (Names []) := by
    refine ⟨{}, ?_, fun name => by simp [not_names_nil]⟩
    exact (Function.update_of_ne (Nat.ne_of_lt (Nat.lt_succ_self p.heap.next)) ..).trans
      (Function.update_self ..)
  refine ⟨q, grown, held [] empty, ?_⟩
  rw [parseFunctionS, bind_run_of_ok (initHashSet_reading ..), bind_run_of_ok (initHashSet_reading ..),
    bind_run_of_ok (modify_run ..)]
  change (expectAndConsume .oPren >>= _ : ParseM _)
    (p.entering.reading (opened :: (names ++ closed :: more))) = _
  rw [bind_run_of_ok (expectAndConsume_run _ _ _ isOpen), bind_run_of_ok run,
    bind_run_of_ok (expectAndConsume_run _ _ _ isClosed), bind_run_of_ok (get_run _)]
  change (parseStatementsF _ [p.heap.next, q.globalTable] _ _ >>= _ : ParseM _) _ = _
  rw [show q.globalTable = p.globalTable from grown.globalTable, Nat.zero_add]
  rfl

private theorem parseFunctionS_run (name : CStr) {params : List Name} {body : List StmtTree}
    (full : FullBody body)
    (printed : PrintedAs tokens
      (.mark .oPren :: (printParams params ++ .mark .cPren :: braced (printBody body))))
    (enough : 3 * tokens.length + 2 ≤ fuel) (rest : List Token) :
    ∃ q, Appended (3 + bodyScopes body) [] p q ∧
      q.heap.Keys p.heap.next (Names (params.map some)) ∧
      parseFunctionS fuel name (p.reading (tokens ++ rest)) =
        .ok (.function name p.heap.next (p.heap.next + 1) params.length
          (.scope ⟨p.heap.next + 2, [p.heap.next, p.globalTable]⟩
            (bodyNodes [p.heap.next + 2, p.heap.next, p.globalTable] (p.heap.next + 3) body)))
          (q.reading rest) := by
  obtain ⟨opened, _, rfl, isOpen, printed⟩ := printed.cons
  obtain ⟨names, _, rfl, areNames, printed⟩ := printed.append
  obtain ⟨closed, block, rfl, isClosed, isBlock⟩ := printed.cons
  have enoughNames : names.length + 1 ≤ fuel := by
    simp at enough
    omega
  obtain ⟨q, grown, held, header⟩ :=
    parseFunctionS_header name isOpen areNames isClosed enoughNames (block ++ rest)
  have next : q.heap.next = p.heap.next + 2 := grown.next
  have lables : q.heap.Live q.tLableTab :=
    grown.lableTab ▸ grown.live _ (HsHeap.Live.init p.making.heap)
  obtain ⟨fuel, rfl⟩ : ∃ less, fuel = less + 1 :=
    Nat.exists_eq_succ_of_ne_zero (Nat.ne_zero_of_lt enoughNames)
  have enoughBlock : 3 * block.length + 1 ≤ fuel := by
    simp at enough
    omega
  obtain ⟨r, grown', run⟩ := parseBlock_run (bodyParses body full) isBlock enoughBlock lables rest
    [p.heap.next, p.globalTable]
  obtain ⟨brace, behind, rfl, isBrace, -⟩ := isBlock.cons
  refine ⟨r, ?_, ?_, ?_⟩
  · have appended := ((Appended.entering p).trans grown.appended).trans grown'.appended
    rwa [show 2 + 0 + (1 + bodyScopes body) = 3 + bodyScopes body by omega] at appended
  · have lableTab : q.tLableTab = p.heap.next + 1 := grown.lableTab
    have inside : Inside p.heap.next q := ⟨by omega, by omega, by omega⟩
    have heap : (q.making.reading (brace :: behind ++ rest)).heap = q.heap.initHashSet.2 := rfl
    obtain ⟨_, -, parsed⟩ := parseBlock_ok (scopeParsers fuel) inside heap rfl rfl rfl run
    exact held.congr (parsed.extended.own_kept rfl)
  · rw [List.cons_append] at header run
    rw [List.cons_append, List.append_assoc, List.cons_append, List.cons_append, header,
      bind_run_of_ok (parseStatementsF_brace isBrace none p.heap.next run), next]
    rfl

/-- One round of the loop of `parser`. -/
private theorem parserLoop_function {name : Token} {node : AstNode} {q : Parser} {opened : Token}
    {more : List Token} (isName : name.kind = .identifier) (isOpen : opened.kind = .oPren)
    (run : parseFunctionS fuel name.lexeme (p.reading (opened :: more)) = .ok node (q.reading rest)) :
    parserLoop (fuel + 1) (p.reading (name :: opened :: more)) =
      parserLoop fuel ((q.adding [node]).reading rest) := by
  rw [parserLoop, bind_run_of_ok (curr_run ..)]
  dsimp only
  rw [if_pos isName, bind_run_of_ok (skip_run ..), bind_run_of_ok (tokField_run ..), if_pos isOpen,
    bind_run_of_ok run, bind_run_of_ok (modify_run ..)]
  rfl

private theorem parserLoop_globals {name : Token} {q : Parser} {next : Token} {more : List Token}
    (isName : name.kind = .identifier) (plain : next.kind ≠ .oPren)
    (run : parseGlobalS fuel name.lexeme (p.reading (next :: more)) = .ok () (q.reading rest)) :
    parserLoop (fuel + 1) (p.reading (name :: next :: more)) = parserLoop fuel (q.reading rest) := by
  rw [parserLoop, bind_run_of_ok (curr_run ..)]
  dsimp only
  rw [if_pos isName, bind_run_of_ok (skip_run ..), bind_run_of_ok (tokField_run ..), if_neg plain,
    bind_run_of_ok run]

private theorem parserLoop_extrn {word : Token} {more : List Token} {nodes : List AstNode}
    (isWord : word.kind = .extrn)
    (run : parseExtrnS fuel (some p.ast) (p.reading (word :: more)) =
      .ok (some (p.ast ++ nodes)) (p.reading rest)) :
    parserLoop (fuel + 1) (p.reading (word :: more)) =
      parserLoop fuel ((p.adding nodes).reading rest) := by
  rw [parserLoop, bind_run_of_ok (curr_run ..)]
  dsimp only
  rw [if_neg (by rw [isWord]; decide), if_pos isWord, bind_run_of_ok (get_run _)]
  change (parseExtrnS fuel (some p.ast) >>= _ : ParseM _) _ = _
  rw [bind_run_of_ok run, bind_run_of_ok (modify_run ..)]
  rfl

/-- The set of a function for its parameters has their names. -/
def TopTree.ParamTable (heap : HsHeap) (next : Nat) : TopTree → Prop
  | .function _ params _ => heap.Keys next (Names (params.map some))
  | .globals .. | .extrn .. => True

/-- The loop of `parser` reads a declaration and appends its nodes. -/
def TopTree.Parses (top : TopTree) : Prop :=
  ∀ (tokens : List Token) (fuel : Nat) (p : Parser) (rest : List Token),
    PrintedAs tokens top.print → 3 * tokens.length + 2 ≤ fuel → p.heap.Live p.globalTable →
    ∃ q, Appended top.scopes (top.nodes p.globalTable p.heap.next) p q ∧
      top.ParamTable q.heap p.heap.next ∧
      parserLoop (fuel + 1) (p.reading (tokens ++ rest)) = parserLoop fuel (q.reading rest)

theorem TopTree.parses_function (name : Name) (params : List Name) {body : List StmtTree}
    (full : FullBody body) : (TopTree.function name params body).Parses := by
  intro tokens fuel p rest printed enough _
  obtain ⟨word, more, rfl, ⟨isName, lexeme⟩, printed⟩ := printed.cons
  have enough : 3 * more.length + 2 ≤ fuel := by
    simp at enough
    omega
  obtain ⟨q, appended, held, run⟩ := parseFunctionS_run (some name) full printed enough rest
  obtain ⟨opened, behind, rfl, isOpen, -⟩ := printed.cons
  refine ⟨q.adding _, appended.trans (.adding q _), held, ?_⟩
  rw [List.cons_append, List.cons_append,
    parserLoop_function isName isOpen (by rw [lexeme]; exact run)]

/-- The token behind the first name tells global variables from a function. -/
private theorem globals_begin {size : Option (CStr × Nat)} {more : List Declared} {semicolon : Token}
    (printed : PrintedAs tokens (printSize size ++ printMore Declared.print more))
    (kind : semicolon.kind = .semicolon) (rest : List Token) :
    ∃ next behind, tokens ++ semicolon :: rest = next :: behind ∧ next.kind ≠ .oPren := by
  cases size with
  | some size =>
      obtain ⟨opened, behind, rfl, isOpen, -⟩ := printed.cons
      exact ⟨opened, _, rfl, by rw [show opened.kind = _ from isOpen]; decide⟩
  | none =>
      cases more with
      | nil =>
          cases printed
          exact ⟨semicolon, rest, rfl, by rw [kind]; decide⟩
      | cons declared more =>
          obtain ⟨comma, behind, rfl, isComma, -⟩ := printed.cons
          exact ⟨comma, _, rfl, by rw [show comma.kind = _ from isComma]; decide⟩

theorem TopTree.parses_globals (first : Declared) (more : List Declared) :
    (TopTree.globals first more).Parses := by
  intro tokens fuel p rest printed enough live
  obtain ⟨items, _, rfl, areItems, printed⟩ := printed.append
  obtain ⟨semicolon, _, rfl, isSemicolon, printed⟩ := printed.cons
  cases printed
  obtain ⟨name, others, rfl, ⟨isName, lexeme⟩, behind⟩ := areItems.cons
  have enough : others.length + 1 ≤ fuel := by
    simp at enough
    omega
  obtain ⟨q, appended, run⟩ := parseGlobalLoop_run behind enough live isSemicolon rest
  refine ⟨q, appended, trivial, ?_⟩
  have finish : parseGlobalS fuel name.lexeme (p.reading (others ++ semicolon :: rest)) =
      .ok () (q.reading rest) := by
    rw [parseGlobalS, lexeme, bind_run_of_ok run, expectAndConsume_run _ _ _ isSemicolon]
  obtain ⟨next, more, same, plain⟩ := globals_begin behind isSemicolon rest
  rw [List.append_assoc, List.singleton_append, List.cons_append, same]
  rw [same] at finish
  exact parserLoop_globals isName plain finish

theorem TopTree.parses_extrn (first : Name) (more : List Name) : (TopTree.extrn first more).Parses := by
  intro tokens fuel p rest printed enough _
  have run : parseExtrnS fuel (some p.ast) (p.reading (tokens ++ rest)) = .ok _ (p.reading rest) :=
    parseExtrnS_run printed (by omega) p.ast
  obtain ⟨word, others, rfl, isWord, -⟩ := printed.cons
  exact ⟨p.adding _, .adding p _, trivial, parserLoop_extrn isWord run⟩

theorem TopTree.parses (top : TopTree) (full : top.Full) : top.Parses := by
  cases top with
  | function name params body => exact TopTree.parses_function name params full
  | globals first more => exact TopTree.parses_globals first more
  | extrn first more => exact TopTree.parses_extrn first more

/-- The sets for parameters have the names of each function, where those of the first are
made from `next` on. -/
def ParamTables (heap : HsHeap) (next : Nat) : List TopTree → Prop
  | [] => True
  | top :: program => top.ParamTable heap next ∧ ParamTables heap (next + top.scopes) program

private theorem parserLoop_run {program : List TopTree} (full : FullProgram program)
    (printed : PrintedAs tokens (printProgram program)) (enough : 3 * tokens.length + 3 ≤ fuel)
    (live : p.heap.Live p.globalTable) (low : p.globalTable < p.heap.next) :
    ∃ q made, Appended made (programNodes p.globalTable p.heap.next program) p q ∧
      ParamTables q.heap p.heap.next program ∧
      parserLoop fuel (p.reading tokens) = .ok () (q.reading []) := by
  induction program generalizing tokens fuel p with
  | nil =>
      cases printed
      obtain ⟨fuel, rfl⟩ := Nat.exists_eq_succ_of_ne_zero (Nat.ne_zero_of_lt enough)
      exact ⟨p, 0, (Grown.refl p).appended, trivial, rfl⟩
  | cons top program ih =>
      obtain ⟨head, more, rfl, isHead, isMore⟩ := printed.append
      obtain ⟨fuel, rfl⟩ := Nat.exists_eq_succ_of_ne_zero (Nat.ne_zero_of_lt enough)
      have nonempty : 0 < head.length := by
        cases top <;> obtain ⟨_, _, rfl, -⟩ := isHead.cons <;> exact Nat.succ_pos _
      rw [List.length_append] at enough
      obtain ⟨q, appended, held, run⟩ :=
        top.parses (full top List.mem_cons_self) head fuel p more isHead (by omega) live
      have live' : q.heap.Live q.globalTable := appended.globalTable ▸ appended.live _ live
      have low' : q.globalTable < q.heap.next := by
        rw [appended.globalTable, appended.next]
        omega
      have enough : 3 * more.length + 3 ≤ fuel := by omega
      obtain ⟨r, made, appended', tables, run'⟩ :=
        ih (fun other member => full other (List.mem_cons_of_mem _ member)) isMore enough live' low'
      have kept : ∀ id : Nat, id < q.heap.next → id ≠ q.globalTable →
          r.heap.sets id = q.heap.sets id := (parserLoop_precedes run').kept
      rw [appended.globalTable, appended.next] at appended' kept
      rw [appended.next] at tables
      refine ⟨r, _, appended.trans appended', ⟨?_, tables⟩, run.trans run'⟩
      cases top with
      | function =>
          refine held.congr (kept _ ?_ (Nat.ne_of_gt low))
          rw [TopTree.scopes]
          omega
      | globals | extrn => trivial

theorem parser_run {program : List TopTree} (full : FullProgram program)
    (printed : PrintedAs tokens (printProgram program)) :
    ∃ q made, Appended made (programNodes 0 1 program) (initParser tokens) q ∧
      ParamTables q.heap 1 program ∧ parser (initParser tokens) = .ok () (q.reading []) := by
  have live : (initParser tokens).heap.Live (initParser tokens).globalTable := .init {}
  have enough : 3 * tokens.length + 3 ≤ parserFuel tokens.length := by
    rw [parserFuel]
    omega
  exact parserLoop_run full printed enough live Nat.zero_lt_one

/-- The parser gives back the tree that a program was printed from, without a diagnostic. -/
theorem parser_printed (program : List TopTree) (full : FullProgram program)
    (printed : PrintedAs tokens (printProgram program)) :
    ∃ p, parser (initParser tokens) = .ok () p ∧ p.tok = [] ∧ p.ast = programNodes 0 1 program ∧
      p.stderr = [] := by
  obtain ⟨q, made, appended, -, run⟩ := parser_run full printed
  exact ⟨q.reading [], run, rfl, appended.ast, appended.stderr⟩

/-- `f ( a ) { auto v [ 2 ] ; l : if ( a ) { goto l ; } else if ( v ) { return a ; } else { }
while ( a ) { v ; } } g ;` -/
def nestedProgram : List TopTree :=
  let a := .atom .identifier isKindLiteral_identifier (some [byte 'a']) 0
  let v := .atom .identifier isKindLiteral_identifier (some [byte 'v']) 0
  [.function [byte 'f'] [[byte 'a']]
    [.auto ⟨[byte 'v'], some (some [byte '2'], 2)⟩ [],
      .lable [byte 'l'],
      .if_ a [.goto [byte 'l']] (.elseIf v [.return_ (some a)] (.else_ [])),
      .while_ a [.expr v]],
    .globals ⟨[byte 'g'], none⟩ []]

theorem parser_printed_nested :
    ∃ p, parser (initParser ((printProgram nestedProgram).map Spelled.token)) = .ok () p ∧
      p.tok = [] ∧
      p.ast =
        [.function (some [byte 'f']) 1 2 1 (.scope ⟨3, [1, 0]⟩
          [.auto (some [byte 'v']) 2,
            .lable (some [byte 'l']),
            .if_ (.atom .identifier (some [byte 'a']) 0)
              (.scope ⟨4, [3, 1, 0]⟩ [.goto (some [byte 'l'])])
              (some (.elseIf (.atom .identifier (some [byte 'v']) 0)
                (.scope ⟨5, [3, 1, 0]⟩ [.return_ (some (.atom .identifier (some [byte 'a']) 0))])
                (some (.else_ ⟨6, [3, 1, 0]⟩ [])))),
            .while_ (.atom .identifier (some [byte 'a']) 0)
              (.scope ⟨7, [3, 1, 0]⟩ [.expr (.atom .identifier (some [byte 'v']) 0)])]),
          .global (some [byte 'g']) 1] ∧
      p.stderr = [] :=
  parser_printed nestedProgram
    (by simp [FullProgram, nestedProgram, TopTree.Full, FullBody, StmtTree.Full, ChainTree.Full])
    (printedAs_token _)

end Program

end Trident
