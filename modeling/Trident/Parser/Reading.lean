import Trident.Parser.Scopes
import Trident.Parser.Source

/-! The parser reads a printed program back as the nodes of its tree. -/

set_option autoImplicit false

namespace Trident

open Foundation

/-! What a run that reads a printed piece adds to the state. -/

/-- The hash set is there. -/
def HsHeap.Live (heap : HsHeap) (id : Nat) : Prop := (heap.sets id).isSome

/-- The hash set is there, with entries for the names for which `keys` holds. -/
def HsHeap.Keys (heap : HsHeap) (id : Nat) (keys : CStr → Prop) : Prop :=
  ∃ table, heap.sets id = some table ∧ ∀ name, (table.get name).isSome ↔ keys (some name)

/-- Reading a piece of the program with `made` scopes adds hash sets and entries, and
changes nothing else beside the tokens. -/
structure Grown (made : Nat) (p q : Parser) : Prop where
  next : q.heap.next = p.heap.next + made
  live : ∀ id, p.heap.Live id → q.heap.Live id
  globalTable : q.globalTable = p.globalTable
  ast : q.ast = p.ast
  lableTab : q.tLableTab = p.tLableTab
  stderr : q.stderr = p.stderr

/-- The same for a declaration of the program, which is appended to the list. -/
structure Appended (made : Nat) (nodes : List AstNode) (p q : Parser) : Prop where
  next : q.heap.next = p.heap.next + made
  live : ∀ id, p.heap.Live id → q.heap.Live id
  globalTable : q.globalTable = p.globalTable
  ast : q.ast = p.ast ++ nodes
  stderr : q.stderr = p.stderr

/-- The hash sets that the statements of a scope are entered in. -/
structure TablesLive (own : Nat) (p : Parser) : Prop where
  own : p.heap.Live own
  lables : p.heap.Live p.tLableTab

section

variable {own made more : Nat} {p q r : Parser}

theorem Grown.refl (p : Parser) : Grown 0 p p := ⟨rfl, fun _ live => live, rfl, rfl, rfl, rfl⟩

theorem Grown.trans (first : Grown made p q) (second : Grown more q r) : Grown (made + more) p r where
  next := by
    rw [second.next, first.next]
    exact Nat.add_assoc ..
  live := fun id live => second.live id (first.live id live)
  globalTable := second.globalTable.trans first.globalTable
  ast := second.ast.trans first.ast
  lableTab := second.lableTab.trans first.lableTab
  stderr := second.stderr.trans first.stderr

theorem Grown.appended (grown : Grown made p q) : Appended made [] p q :=
  ⟨grown.next, grown.live, grown.globalTable, grown.ast.trans (List.append_nil _).symm, grown.stderr⟩

theorem Appended.trans {nodes nodes' : List AstNode} (first : Appended made nodes p q)
    (second : Appended more nodes' q r) : Appended (made + more) (nodes ++ nodes') p r where
  next := by
    rw [second.next, first.next]
    exact Nat.add_assoc ..
  live := fun id live => second.live id (first.live id live)
  globalTable := second.globalTable.trans first.globalTable
  ast := by rw [second.ast, first.ast, List.append_assoc]
  stderr := second.stderr.trans first.stderr

theorem TablesLive.grown (ready : TablesLive own p) (grown : Grown made p q) : TablesLive own q :=
  ⟨grown.live own ready.own, grown.lableTab ▸ grown.live _ ready.lables⟩

theorem HsHeap.Live.write {heap : HsHeap} {id other : Nat} {table : Hs} (live : heap.Live other) :
    (heap.write id table).Live other := by
  by_cases same : other = id
  · subst same
    simp [HsHeap.Live]
  · simpa [HsHeap.Live, HsHeap.write_of_ne _ _ same] using live

theorem putToHashSet_run {id : Nat} (live : p.heap.Live id) (name : Name) (info : VarInfo)
    (tokens : List Token) :
    ∃ q, Grown 0 p q ∧
      putToHashSet id (some name) info (p.reading tokens) = .ok () (q.reading tokens) := by
  obtain ⟨table, stored⟩ := Option.isSome_iff_exists.mp live
  refine ⟨{ p with heap := p.heap.write id (table.put name info) }, ?_, ?_⟩
  · exact ⟨rfl, fun _ live => live.write, rfl, rfl, rfl, rfl⟩
  · have present : (p.reading tokens).heap.sets id = some table := stored
    rw [putToHashSet, bind_run_of_ok (get_run _)]
    simp only [present]
    rfl

theorem HsHeap.Keys.congr {heap heap' : HsHeap} {id : Nat} {keys : CStr → Prop}
    (held : heap.Keys id keys) (same : heap'.sets id = heap.sets id) : heap'.Keys id keys := by
  obtain ⟨table, stored, entries⟩ := held
  exact ⟨table, same.trans stored, entries⟩

theorem HsHeap.Keys.put {heap : HsHeap} {id : Nat} {names : List CStr} {table : Hs} {name : Name}
    (held : heap.Keys id (Names names)) (stored : heap.sets id = some table) (info : VarInfo) :
    (heap.write id (table.put name info)).Keys id (Names (names ++ [some name])) := by
  obtain ⟨table', stored', entries⟩ := held
  cases stored'.symm.trans stored
  refine ⟨table.put name info, HsHeap.write_self .., fun other => ?_⟩
  have added : Names [some name] (some other) ↔ cstr other = cstr name := by
    simp only [Names, SameName, List.mem_singleton, exists_eq_left, Option.isSome_some,
      Option.map_some, Option.some.injEq, true_and]
  rw [Hs.get_put, names_append, ← entries, added]
  by_cases same : cstr other = cstr name
  · simp only [same, if_true, Option.isSome_some, or_true]
  · simp only [same, if_false, or_false]

/-- The context with a new hash set. -/
def Parser.making (p : Parser) : Parser := { p with heap := p.heap.initHashSet.2 }

theorem initHashSet_reading (p : Parser) (tokens : List Token) :
    initHashSet (p.reading tokens) = .ok p.heap.next (p.making.reading tokens) := rfl

theorem HsHeap.Live.init (heap : HsHeap) : heap.initHashSet.2.Live heap.next := by
  simp [HsHeap.Live, HsHeap.initHashSet]

theorem Grown.making (p : Parser) : Grown 1 p p.making where
  next := rfl
  live := by
    intro id live
    by_cases same : id = p.heap.next
    · subst same
      exact .init p.heap
    · have kept : p.making.heap.sets id = p.heap.sets id := Function.update_of_ne same ..
      rw [HsHeap.Live, kept]
      exact live
  globalTable := rfl
  ast := rfl
  lableTab := rfl
  stderr := rfl

end

/-! Lists with commas. -/

section Lists

variable {α : Type} {print : α → List Spelled} {tokens : List Token} {text : List Spelled}

private theorem commaList_cons (print : α → List Spelled) (first second : α) (more : List α) :
    commaList print first (second :: more) =
      print first ++ .mark .comma :: commaList print second more := by
  simp [commaList, printMore]

private theorem commaList_nil (print : α → List Spelled) (first : α) : commaList print first [] = print first := by
  simp [commaList, printMore]

/-- A list of more than one item. -/
theorem PrintedAs.commaList {first second : α} {more : List α}
    (printed : PrintedAs tokens (commaList print first (second :: more))) :
    ∃ item comma others, tokens = item ++ comma :: others ∧ PrintedAs item (print first) ∧
      comma.kind = .comma ∧ PrintedAs others (Trident.commaList print second more) := by
  rw [commaList_cons] at printed
  obtain ⟨item, _, rfl, isItem, printed⟩ := printed.append
  obtain ⟨comma, others, rfl, kind, printed⟩ := printed.cons
  exact ⟨item, comma, others, rfl, isItem, kind, printed⟩

theorem PrintedAs.name {name : CStr} (printed : PrintedAs tokens [.name name]) :
    ∃ token : Token, tokens = [token] ∧ token.kind = .identifier ∧ token.lexeme = name := by
  obtain ⟨token, _, rfl, ⟨kind, lexeme⟩, printed⟩ := printed.cons
  cases printed
  exact ⟨token, rfl, kind, lexeme⟩

/-- The keyword or the opener before a text, and the closer behind it. -/
theorem PrintedAs.between {first last : TokenKind}
    (printed : PrintedAs tokens (.mark first :: (text ++ [.mark last]))) :
    ∃ opened inner closed, tokens = opened :: (inner ++ [closed]) ∧ opened.kind = first ∧
      closed.kind = last ∧ PrintedAs inner text := by
  obtain ⟨opened, inner, closed, rfl, inside⟩ := printed.enclosed
  exact ⟨opened.1, inner, closed.1, rfl, opened.2, closed.2, inside⟩

/-- The size of a vector in its brackets. -/
theorem PrintedAs.size {size : CStr × Nat} (printed : PrintedAs tokens (printSize (some size))) :
    ∃ opened literal closed : Token, tokens = [opened, literal, closed] ∧
      opened.kind = .oBracket ∧ literal.kind = .int ∧ literal.intLit = size.2 ∧
      closed.kind = .cBracket := by
  obtain ⟨opened, _, rfl, openedKind, printed⟩ := printed.cons
  obtain ⟨literal, _, rfl, ⟨kind, -, value⟩, printed⟩ := printed.cons
  obtain ⟨closed, _, rfl, closedKind, printed⟩ := printed.cons
  cases printed
  exact ⟨opened, literal, closed, rfl, openedKind, kind, value, closedKind⟩

end Lists

/-! Declarations and parameters. -/

section Declarations

variable {fuel own : Nat} {p : Parser} {tokens rest : List Token} {next semicolon : Token}

private theorem parseAutoSize_run {size : Option (CStr × Nat)} (printed : PrintedAs tokens (printSize size))
    (plain : next.kind ≠ .oBracket) :
    parseAutoSize (p.reading (tokens ++ next :: rest)) =
      .ok (size.elim 1 (·.2)) (p.reading (next :: rest)) := by
  cases size with
  | none =>
      cases printed
      rw [List.nil_append, parseAutoSize, bind_run_of_ok (isKind_run ..), beq_false_of_ne plain]
      rfl
  | some size =>
      obtain ⟨opened, literal, closed, rfl, openedKind, kind, value, closedKind⟩ := printed.size
      rw [List.cons_append, parseAutoSize, bind_run_of_ok (isKind_run ..), openedKind]
      change (discard pconsume >>= _ : ParseM Nat) _ = _
      rw [bind_run_of_ok (skip_run ..), List.cons_append, bind_run_of_ok (tokField_run ..),
        bind_run_of_ok (expectAndConsume_run _ _ _ kind), List.singleton_append,
        bind_run_of_ok (expectAndConsume_run _ _ _ closedKind), value]
      rfl

private theorem parseGlobalSize_run {size : Option (CStr × Nat)} (printed : PrintedAs tokens (printSize size))
    (plain : next.kind ≠ .oBracket) :
    parseGlobalSize (p.reading (tokens ++ next :: rest)) =
      .ok (size.elim 1 (·.2)) (p.reading (next :: rest)) := by
  cases size with
  | none =>
      cases printed
      rw [List.nil_append, parseGlobalSize, bind_run_of_ok (isKind_run ..), beq_false_of_ne plain]
      rfl
  | some size =>
      obtain ⟨opened, literal, closed, rfl, openedKind, -, value, closedKind⟩ := printed.size
      rw [List.cons_append, parseGlobalSize, bind_run_of_ok (isKind_run ..), openedKind]
      change (discard pconsume >>= _ : ParseM Nat) _ = _
      rw [bind_run_of_ok (skip_run ..), List.cons_append, bind_run_of_ok (tokField_run ..),
        bind_run_of_ok (skip_run ..), List.singleton_append,
        bind_run_of_ok (expectAndConsume_run _ _ _ closedKind), value]
      rfl

theorem Declared.count_eq (declared : Declared) : declared.count = declared.size.elim 1 (·.2) := by
  obtain ⟨name, size⟩ := declared
  cases size <;> rfl

private theorem addNode_run (body : List AstNode) (node : AstNode) :
    addNode (some body) (some node) p = .ok (some (body ++ [node])) p := rfl

/-- One round of the loop of `parse_auto_s`. -/
private theorem parseAutoLoop_item {declared : Declared} (printed : PrintedAs tokens declared.print)
    (plain : next.kind ≠ .oBracket) (live : p.heap.Live own) (body : List AstNode) (fuel : Nat)
    (rest : List Token) :
    ∃ q, Grown 0 p q ∧
      parseAutoLoop (fuel + 1) own (some body) (p.reading (tokens ++ next :: rest)) =
        (if next.kind == TokenKind.comma then do
            discard pconsume
            parseAutoLoop fuel own (some (body ++ [declared.auto]))
          else return some (body ++ [declared.auto])) (q.reading (next :: rest)) := by
  obtain ⟨token, size, rfl, ⟨kind, lexeme⟩, printed⟩ := printed.cons
  obtain ⟨q, grown, put⟩ := putToHashSet_run live declared.name { kind := .autoVar } (next :: rest)
  refine ⟨q, grown, ?_⟩
  rw [List.cons_append, parseAutoLoop, bind_run_of_ok (tokField_run ..),
    bind_run_of_ok (expectAndConsume_run _ _ _ kind), bind_run_of_ok (parseAutoSize_run printed plain),
    lexeme, bind_run_of_ok put, bind_run_of_ok (addNode_run ..), bind_run_of_ok (isKind_run ..),
    ← Declared.count_eq]
  rfl

theorem parseAutoLoop_run {first : Declared} {more : List Declared}
    (printed : PrintedAs tokens (commaList Declared.print first more)) (enough : tokens.length ≤ fuel)
    (live : p.heap.Live own) (kind : semicolon.kind = .semicolon) (body : List AstNode) :
    ∃ q, Grown 0 p q ∧
      parseAutoLoop fuel own (some body) (p.reading (tokens ++ semicolon :: rest)) =
        .ok (some (body ++ (first :: more).map Declared.auto)) (q.reading (semicolon :: rest)) := by
  induction more generalizing first tokens fuel p body with
  | nil =>
      rw [commaList_nil] at printed
      obtain ⟨token, size, rfl, isName, sized⟩ := printed.cons
      obtain ⟨fuel, rfl⟩ := Nat.exists_eq_succ_of_ne_zero (Nat.ne_zero_of_lt enough)
      have plain : semicolon.kind ≠ .oBracket := by
        rw [kind]
        decide
      obtain ⟨q, grown, run⟩ := parseAutoLoop_item printed plain live body fuel rest
      refine ⟨q, grown, ?_⟩
      rw [run, if_neg (by rw [kind]; decide)]
      rfl
  | cons second more ih =>
      obtain ⟨item, comma, others, rfl, isItem, isComma, printed⟩ := printed.commaList
      rw [List.length_append, List.length_cons] at enough
      obtain ⟨fuel, rfl⟩ : ∃ less, fuel = less + 1 := ⟨fuel - 1, by omega⟩
      have enough : others.length ≤ fuel := by omega
      have plain : comma.kind ≠ .oBracket := by
        rw [isComma]
        decide
      obtain ⟨q, grown, run⟩ :=
        parseAutoLoop_item isItem plain live body fuel (others ++ semicolon :: rest)
      obtain ⟨r, grown', run'⟩ := ih printed enough (grown.live own live) (body ++ [first.auto])
      refine ⟨r, grown.trans grown', ?_⟩
      rw [List.append_assoc, List.cons_append, run, if_pos (by rw [isComma]; rfl),
        bind_run_of_ok (skip_run ..), run']
      simp

theorem parseExtrnLoop_run {first : Name} {more : List Name}
    (printed : PrintedAs tokens (commaList printName first more)) (enough : tokens.length ≤ fuel)
    (kind : semicolon.kind = .semicolon) (body : List AstNode) :
    parseExtrnLoop fuel (some body) (p.reading (tokens ++ semicolon :: rest)) =
      .ok (some (body ++ (first :: more).map externNode)) (p.reading (semicolon :: rest)) := by
  induction more generalizing first tokens fuel body with
  | nil =>
      rw [commaList_nil] at printed
      obtain ⟨token, rfl, isName, lexeme⟩ := printed.name
      obtain ⟨fuel, rfl⟩ := Nat.exists_eq_succ_of_ne_zero (Nat.ne_zero_of_lt enough)
      rw [List.cons_append, parseExtrnLoop, bind_run_of_ok (tokField_run ..),
        bind_run_of_ok (skip_run ..), List.nil_append, bind_run_of_ok (isKind_run ..), lexeme, kind]
      change (addNode _ _ >>= _ : ParseM _) _ = _
      rw [bind_run_of_ok (addNode_run ..), bind_run_of_ok (isKind_run ..), kind]
      rfl
  | cons second more ih =>
      obtain ⟨item, comma, others, rfl, isItem, isComma, behind⟩ := printed.commaList
      obtain ⟨token, rfl, isName, lexeme⟩ := isItem.name
      obtain ⟨fuel, rfl⟩ := Nat.exists_eq_succ_of_ne_zero (Nat.ne_zero_of_lt enough)
      have enough : others.length ≤ fuel := by
        simp at enough
        omega
      have later := ih behind enough (body ++ [externNode first])
      have notLast : ∃ next others', others = next :: others' ∧ next.kind = .identifier := by
        cases more <;> obtain ⟨next, others', rfl, isName, -⟩ := behind.cons <;>
          exact ⟨next, others', rfl, isName.1⟩
      obtain ⟨next, others, rfl, nextKind⟩ := notLast
      rw [List.singleton_append, List.cons_append, parseExtrnLoop, bind_run_of_ok (tokField_run ..),
        bind_run_of_ok (skip_run ..), List.cons_append, bind_run_of_ok (isKind_run ..), lexeme, isComma]
      change (discard pconsume >>= _ : ParseM _) _ = _
      rw [bind_run_of_ok (skip_run ..), List.cons_append]
      change (addNode _ _ >>= _ : ParseM _) _ = _
      rw [bind_run_of_ok (addNode_run ..), bind_run_of_ok (isKind_run ..), nextKind]
      change parseExtrnLoop fuel (some (body ++ [externNode first])) _ = _
      rw [← List.cons_append, later]
      simp

/-- The context with more declarations. -/
def Parser.adding (p : Parser) (nodes : List AstNode) : Parser := { p with ast := p.ast ++ nodes }

theorem Appended.adding (p : Parser) (nodes : List AstNode) : Appended 0 nodes p (p.adding nodes) :=
  ⟨rfl, fun _ live => live, rfl, rfl, rfl⟩

/-- One round of the loop of `parse_global_s`. -/
private theorem parseGlobalLoop_item {declared : Declared} (printed : PrintedAs tokens (printSize declared.size))
    (plain : next.kind ≠ .oBracket) (live : p.heap.Live p.globalTable) (fuel : Nat)
    (rest : List Token) :
    ∃ q, Appended 0 [declared.global] p q ∧
      parseGlobalLoop (fuel + 1) (some declared.name) (p.reading (tokens ++ next :: rest)) =
        (if next.kind == TokenKind.comma then do
            discard pconsume
            let name := (← tokField).lexeme
            discard pconsume
            parseGlobalLoop fuel name
          else return ⟨⟩) (q.reading (next :: rest)) := by
  obtain ⟨q, grown, put⟩ := putToHashSet_run live declared.name { kind := .globalVar } (next :: rest)
  refine ⟨q.adding [declared.global], grown.appended.trans (.adding q _), ?_⟩
  rw [parseGlobalLoop, bind_run_of_ok (parseGlobalSize_run printed plain),
    bind_run_of_ok (get_run _)]
  change (putToHashSet p.globalTable (some declared.name) { kind := .globalVar } >>= _ : ParseM Unit) _ = _
  rw [bind_run_of_ok put, bind_run_of_ok (modify_run ..), ← Declared.count_eq]
  rfl

theorem parseGlobalLoop_run {first : Declared} {more : List Declared}
    (printed : PrintedAs tokens (printSize first.size ++ printMore Declared.print more))
    (enough : tokens.length + 1 ≤ fuel) (live : p.heap.Live p.globalTable)
    (kind : semicolon.kind = .semicolon) (rest : List Token) :
    ∃ q, Appended 0 ((first :: more).map Declared.global) p q ∧
      parseGlobalLoop fuel (some first.name) (p.reading (tokens ++ semicolon :: rest)) =
        .ok () (q.reading (semicolon :: rest)) := by
  induction more generalizing first tokens fuel p with
  | nil =>
      obtain ⟨size, _, rfl, sized, printed⟩ := printed.append
      cases printed
      obtain ⟨fuel, rfl⟩ := Nat.exists_eq_succ_of_ne_zero (Nat.ne_zero_of_lt enough)
      have plain : semicolon.kind ≠ .oBracket := by
        rw [kind]
        decide
      obtain ⟨q, appended, run⟩ := parseGlobalLoop_item sized plain live fuel rest
      refine ⟨q, appended, ?_⟩
      rw [List.append_nil, run, if_neg (by rw [kind]; decide)]
      rfl
  | cons second more ih =>
      obtain ⟨size, _, rfl, sized, printed⟩ := printed.append
      obtain ⟨comma, _, rfl, isComma, printed⟩ := printed.cons
      obtain ⟨name, others, rfl, ⟨isName, lexeme⟩, behind⟩ := printed.cons
      obtain ⟨fuel, rfl⟩ := Nat.exists_eq_succ_of_ne_zero (Nat.ne_zero_of_lt enough)
      have enough : others.length + 1 ≤ fuel := by
        simp at enough
        omega
      have plain : comma.kind ≠ .oBracket := by
        rw [isComma]
        decide
      obtain ⟨q, appended, run⟩ :=
        parseGlobalLoop_item sized plain live fuel (name :: (others ++ semicolon :: rest))
      have live' : q.heap.Live q.globalTable := appended.globalTable ▸ appended.live _ live
      obtain ⟨r, appended', run'⟩ := ih behind enough live'
      refine ⟨r, appended.trans appended', ?_⟩
      rw [List.append_assoc, List.cons_append, List.cons_append, run, if_pos (by rw [isComma]; rfl),
        bind_run_of_ok (skip_run ..), bind_run_of_ok (tokField_run ..),
        bind_run_of_ok (skip_run ..), lexeme, run']

/-- One round of the loop of `parse_function_s`. -/
private theorem parseParams_item {token : Token} {name : Name} (kind : token.kind = .identifier)
    (lexeme : token.lexeme = name) (live : p.heap.Live own) (params fuel : Nat) (next : Token)
    (rest : List Token) :
    ∃ q, Grown 0 p q ∧
      (∀ names, p.heap.Keys own (Names names) → q.heap.Keys own (Names (names ++ [some name]))) ∧
      parseParams (fuel + 1) own params (p.reading (token :: next :: rest)) =
        (if next.kind == TokenKind.comma then do
            discard pconsume
            parseParams fuel own (params + 1)
          else parseParams fuel own (params + 1)) (q.reading (next :: rest)) := by
  obtain ⟨q, grown, put⟩ :=
    putToHashSet_run live name { kind := .autoVar, tempDest := params + 1 } (next :: rest)
  refine ⟨q, grown, fun names held => ?_, ?_⟩
  · obtain ⟨_, table, named, stored, same⟩ := putToHashSet_ok put
    cases named
    have heap : q.heap = p.heap.write own _ := congrArg Parser.heap same
    rw [heap]
    exact held.put stored _
  rw [parseParams, bind_run_of_ok (tokField_run ..), if_neg (by rw [kind]; decide),
    bind_run_of_ok (tokField_run ..), bind_run_of_ok (skip_run ..), lexeme, bind_run_of_ok put,
    bind_run_of_ok (isKind_run ..)]

private theorem parseParams_stop (closes : next.kind = .cPren) (params : Nat) :
    parseParams (fuel + 1) own params (p.reading (next :: rest)) =
      .ok params (p.reading (next :: rest)) := by
  rw [parseParams, bind_run_of_ok (tokField_run ..), if_pos closes]
  rfl

theorem parseParams_run {names : List Name} (printed : PrintedAs tokens (printParams names))
    (enough : tokens.length + 1 ≤ fuel) (live : p.heap.Live own) (closes : next.kind = .cPren)
    (rest : List Token) (params : Nat) :
    ∃ q, Grown 0 p q ∧
      (∀ before, p.heap.Keys own (Names before) →
        q.heap.Keys own (Names (before ++ names.map some))) ∧
      parseParams fuel own params (p.reading (tokens ++ next :: rest)) =
        .ok (params + names.length) (q.reading (next :: rest)) := by
  induction names generalizing tokens fuel p params with
  | nil =>
      cases printed
      obtain ⟨fuel, rfl⟩ := Nat.exists_eq_succ_of_ne_zero (Nat.ne_zero_of_lt enough)
      exact ⟨p, .refl p, fun before held => (List.append_nil before).symm ▸ held,
        parseParams_stop closes params⟩
  | cons first names ih =>
      obtain ⟨fuel, rfl⟩ := Nat.exists_eq_succ_of_ne_zero (Nat.ne_zero_of_lt enough)
      cases names with
      | nil =>
          rw [printParams, commaList_nil] at printed
          obtain ⟨token, rfl, isName, lexeme⟩ := printed.name
          obtain ⟨fuel, rfl⟩ : ∃ less, fuel = less + 1 := ⟨fuel - 1, by simp at enough; omega⟩
          obtain ⟨q, grown, held, run⟩ :=
            parseParams_item isName lexeme live params (fuel + 1) next rest
          refine ⟨q, grown, held, ?_⟩
          rw [List.singleton_append, run, if_neg (by rw [closes]; decide), parseParams_stop closes]
          rfl
      | cons second names =>
          obtain ⟨item, comma, others, rfl, isItem, isComma, behind⟩ := printed.commaList
          obtain ⟨token, rfl, isName, lexeme⟩ := isItem.name
          have enough : others.length + 1 ≤ fuel := by
            simp at enough
            omega
          obtain ⟨q, grown, held, run⟩ :=
            parseParams_item isName lexeme live params fuel comma (others ++ next :: rest)
          obtain ⟨r, grown', held', run'⟩ := ih behind enough (grown.live own live) (params + 1)
          refine ⟨r, grown.trans grown', fun before known => ?_, ?_⟩
          · rw [List.map_cons, List.append_cons]
            exact held' _ (held before known)
          rw [List.append_assoc, List.singleton_append, List.cons_append, run,
            if_pos (by rw [isComma]; rfl), bind_run_of_ok (skip_run ..), run',
            List.length_cons, List.length_cons, List.length_cons]
          congr 1
          omega

end Declarations

/-! Expressions in their statements. -/

section Expressions

/-- The text begins an expression, and no label. -/
def BeginsExpr (tokens : List Token) : Prop :=
  ∃ token rest, tokens = token :: rest ∧
    (isKindLiteral token.kind ∨ isUnaryOp token.kind ∨ token.kind = .oPren) ∧
    (token.kind = .identifier → ∀ next ∈ rest.head?, next.kind ≠ .colon)

theorem Primary.begins (operand : Primary) {next : Token} (plain : next.kind ≠ .colon)
    (rest : List Token) : BeginsExpr (operand.tokens ++ next :: rest) := by
  cases operand with
  | atom token => exact ⟨token.1, next :: rest, rfl, .inl token.2, fun _ => by simpa using plain⟩
  | index token opened inner closed =>
      exact ⟨token.1, _, rfl, .inl token.2, by simp [opened.2]⟩
  | call name opened args closed =>
      exact ⟨name.1, _, rfl, .inl (by rw [name.2]; rfl), by simp [opened.2]⟩
  | unary op operand =>
      refine ⟨op.1, _, rfl, .inr (.inl op.2), fun isName => ?_⟩
      have unary := op.2
      rw [isName] at unary
      cases unary
  | paren opened inner closed =>
      exact ⟨opened.1, _, rfl, .inr (.inr opened.2), by simp [opened.2]⟩

theorem Chain.begins (chain : Chain) {next : Token} (plain : next.kind ≠ .colon)
    (rest : List Token) : BeginsExpr (chain.tokens ++ next :: rest) := by
  obtain ⟨first, more⟩ := chain
  cases more with
  | nil => simpa [Chain.tokens, Rest.tokens] using first.begins plain rest
  | cons op operand more =>
      have plain : op.1.kind ≠ .colon := by
        intro colon
        have binary := op.2
        rw [colon] at binary
        cases binary
      simpa [Chain.tokens, Rest.tokens] using first.begins plain _

variable {fuel own : Nat} {p : Parser} {tokens rest : List Token} {semicolon : Token}

theorem ExprTree.begins {tree : ExprTree} (printed : PrintedAs tokens tree.print)
    (kind : semicolon.kind = .semicolon) (rest : List Token) :
    BeginsExpr (tokens ++ semicolon :: rest) := by
  obtain ⟨chain, rfl, -⟩ := tree.readable.chain tokens printed
  exact chain.begins (by rw [kind]; decide) rest

theorem parseStatementsF_expr (begins : BeginsExpr tokens) (parent : List Nat)
    (tail : Option (List AstNode)) :
    parseStatementsF (fuel + 1) parent own tail (p.reading tokens) =
      (do return (← parseExprS fuel, tail)) (p.reading tokens) := by
  obtain ⟨token, rest, rfl, starts, plain⟩ := begins
  rw [parseStatementsF, bind_run_of_ok (tokField_run ..), bind_run_of_ok (ppeak_run ..)]
  cases kind : token.kind
  case identifier =>
    have noLable : (rest.head?.any fun next => next.kind == .colon) = false := by
      cases found : rest.head? with
      | none => rfl
      | some next => exact beq_false_of_ne (plain kind next found)
    change (if rest.head?.any fun next => next.kind == .colon then _ else _ : ParseM _) _ = _
    rw [noLable]
    rfl
  all_goals first
    | exact absurd starts (by rw [kind]; decide)
    | rfl

theorem parseExprS_run {tree : ExprTree} (printed : PrintedAs tokens tree.print)
    (enough : 3 * tokens.length + 1 ≤ fuel) (kind : semicolon.kind = .semicolon) :
    parseExprS fuel (p.reading (tokens ++ semicolon :: rest)) =
      .ok (some (.expr tree.lowered)) (p.reading rest) := by
  have noComma : isKind .comma (p.reading (tokens ++ semicolon :: rest)) =
      .ok false (p.reading (tokens ++ semicolon :: rest)) := by
    obtain ⟨token, more, same, starts, -⟩ := ExprTree.begins printed kind rest
    rw [same, isKind_run, beq_false_of_ne]
    intro comma
    rw [comma] at starts
    revert starts
    decide
  have closes : getOpPrec semicolon.kind = precNone := by
    rw [kind]
    rfl
  rw [parseExprS, bind_run_of_ok noComma]
  change (parseExprF fuel precNone >>= _ : ParseM _) _ = _
  rw [bind_run_of_ok (tree.parses printed enough closes),
    bind_run_of_ok (expectAndConsume_run _ _ _ kind)]
  rfl

/-- `if (...)` and `while (...)`. -/
theorem condition_run {α : Type} {keyword : TokenKind} {condition : ExprTree}
    (printed : PrintedAs tokens (printCondition keyword condition))
    (enough : 3 * tokens.length ≤ fuel) (next : AstNode → ParseM α) :
    (do
      expectAndConsume keyword
      expectAndConsume .oPren
      let condition ← parseExprF fuel precNone
      expectAndConsume .cPren
      next condition) (p.reading (tokens ++ rest)) =
      next condition.lowered (p.reading rest) := by
  obtain ⟨word, _, rfl, isWord, printed⟩ := printed.cons
  obtain ⟨opened, inner, closed, rfl, isOpen, isClosed, inside⟩ := printed.between
  have enough : 3 * inner.length + 1 ≤ fuel := by
    simp at enough
    omega
  have closes : getOpPrec closed.kind = precNone := by
    rw [isClosed]
    rfl
  rw [List.cons_append, List.cons_append, List.append_assoc, List.singleton_append,
    bind_run_of_ok (expectAndConsume_run _ _ _ isWord),
    bind_run_of_ok (expectAndConsume_run _ _ _ isOpen),
    bind_run_of_ok (condition.parses inside enough closes),
    bind_run_of_ok (expectAndConsume_run _ _ _ isClosed)]

end Expressions

end Trident
