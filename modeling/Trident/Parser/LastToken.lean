import Trident.Parser.Agenda
import Trident.Parser.Consumed
import Trident.Parser.Termination

/-! The parser never needs a token behind the last exactly if its tokens can be read through. -/

set_option autoImplicit false

namespace Trident

open Foundation

/-! What is still to be read decides, in every state of a run, whether the whole can be read. -/

/-- The whole can be read exactly if the agenda can be read from here. -/
def Ahead (whole : Prop) (agenda : List Part) (p : Parser) : Prop :=
  whole ↔ Readable Part.turn agenda p.tok

/-- An error tells whether the whole can be read: an exit comes where the reading stops, and a
null pointer where a part lacks something. -/
def Judged (whole : Prop) : Stop → Parser → Prop
  | .exit, _ => whole
  | .fault .nullToken, _ | .fault .nullName, _ | .fault .nullNode, _ => ¬ whole
  | _, _ => True

/-- A run that has the agenda before it when it returns, unless it ends in a judgement. -/
abbrev Tracks {α : Type} (whole : Prop) (post : α → Parser → Prop) (action : ParseM α) (p : Parser) :
    Prop :=
  RunEnds post (Judged whole) action p

section

variable {α : Type} {whole : Prop} {part : Part} {agenda parts : List Part} {p q : Parser}
  {post : α → Parser → Prop} {kind : TokenKind} {token : Token} {rest : List Token}

namespace Ahead

theorem moved (ahead : Ahead whole agenda p) (same : q.tok = p.tok) : Ahead whole agenda q := by
  unfold Ahead
  rw [same]
  exact ahead

theorem opens (ahead : Ahead whole (part :: agenda) p) (turn : part.turn p.tok = .opens parts rest)
    (tok : q.tok = rest) : Ahead whole (parts ++ agenda) q := by
  unfold Ahead
  rw [tok]
  exact ahead.trans (Readable.opens_iff turn)

theorem stays (ahead : Ahead whole (part :: agenda) p) (turn : part.turn p.tok = .opens parts p.tok) :
    Ahead whole (parts ++ agenda) p := ahead.opens turn rfl

theorem leaves (ahead : Ahead whole (part :: agenda) p) (turn : part.turn p.tok = .opens [] rest)
    (tok : q.tok = rest) : Ahead whole agenda q := ahead.opens turn tok

theorem lacks (ahead : Ahead whole (part :: agenda) p) (turn : part.turn p.tok = .lacks) : ¬ whole :=
  fun holds => Readable.not_of_lacks turn (ahead.mp holds)

theorem stops (ahead : Ahead whole (part :: agenda) p) (turn : part.turn p.tok = .stops) : whole :=
  ahead.mpr (.stop turn)

/-- A part that needs a token is stuck behind the last. -/
theorem ended {choose : Token → List Token → Turn Part Token}
    (ahead : Ahead whole (part :: agenda) p) (turn : part.turn p.tok = Part.needs p.tok choose)
    (ended : p.tok = []) : ¬ whole := by
  apply ahead.lacks
  rw [turn, ended]
  rfl

end Ahead

theorem Part.behind_of_not {tokens : List Token} (other : NextNot kind tokens) :
    Part.behind kind parts tokens = .opens [] tokens := by
  cases tokens with
  | nil => rfl
  | cons token rest => exact if_neg (other token rfl)

theorem Part.behind_of_next (same : token.kind = kind) :
    Part.behind kind parts (token :: rest) = .opens parts rest := if_pos same

theorem Part.before_of_not {here other : List Part} {tokens : List Token} (none_ : NextNot kind tokens) :
    Part.before kind here other tokens = .opens other tokens := by
  have no : tokens.head?.any (·.kind == kind) = false := by
    simpa [Option.any_eq_false, NextNot] using none_
  rw [Part.before, no]
  rfl

theorem Part.before_of_next {here other : List Part} (same : token.kind = kind) :
    Part.before kind here other (token :: rest) = .opens here (token :: rest) := by
  have yes : (token :: rest).head?.any (·.kind == kind) = true := beq_iff_eq.mpr same
  rw [Part.before, yes]
  rfl

/-! The token operations. -/

private theorem expect_tracks {next : PUnit → ParseM α} (ahead : Ahead whole (.expect kind :: agenda) p)
    (second : ∀ q, Ahead whole agenda q → Tracks whole post (next ⟨⟩) q) :
    Tracks whole post (expectAndConsume kind >>= next) p := by
  apply expectAndConsume_ends
  · exact ahead.ended rfl
  · intro token rest at_ other
    refine second _ (ahead.leaves ?_ rfl)
    change Part.turn (.expect kind) p.tok = .opens [] p.tok
    have none_ : NextNot kind (token :: rest) := by simpa [NextNot] using other
    rw [at_]
    exact Part.behind_of_not none_
  · intro token rest at_ same
    refine second _ (ahead.leaves ?_ rfl)
    rw [at_]
    exact Part.behind_of_next same

private theorem tokField_tracks {next : Token → ParseM α} {choose : Token → List Token → Turn Part Token}
    (ahead : Ahead whole (part :: agenda) p) (turn : part.turn p.tok = Part.needs p.tok choose)
    (second : ∀ token rest, p.tok = token :: rest → Tracks whole post (next token) p) :
    Tracks whole post (tokField >>= next) p := tokField_ends (ahead.ended turn) second

/-- What may stand behind a token of the kind. -/
private theorem behind_tracks {next : Bool → ParseM α} (ahead : Ahead whole (part :: agenda) p)
    (turn : part.turn = Part.behind kind parts)
    (other : Ahead whole agenda p → Tracks whole post (next false) p)
    (found : ∀ token rest, p.tok = token :: rest → Ahead whole (parts ++ agenda) (p.reading rest) →
      Tracks whole post (next true) p) :
    Tracks whole post (isKind kind >>= next) p := by
  apply isKind_ends
  · intro none_
    refine other (ahead.leaves ?_ rfl)
    rw [turn]
    exact Part.behind_of_not none_
  · intro token rest at_ same
    refine found token rest at_ (ahead.opens ?_ rfl)
    rw [turn, at_]
    exact Part.behind_of_next same

/-- What comes in front of a token of the kind, and what elsewhere. -/
private theorem before_tracks {here other : List Part} {next : Bool → ParseM α}
    (ahead : Ahead whole (part :: agenda) p) (turn : part.turn = Part.before kind here other)
    (elsewhere : Ahead whole (other ++ agenda) p → Tracks whole post (next false) p)
    (found : Ahead whole (here ++ agenda) p → Tracks whole post (next true) p) :
    Tracks whole post (isKind kind >>= next) p := by
  apply isKind_ends
  · intro none_
    refine elsewhere (ahead.stays ?_)
    rw [turn]
    exact Part.before_of_not none_
  · intro token rest at_ same
    refine found (ahead.opens ?_ at_)
    rw [turn, at_]
    exact Part.before_of_next same

private theorem enter_ends {id : Nat} {name : Name} {info : VarInfo} :
    Tracks whole (fun _ q => q.tok = p.tok) (putToHashSet id (some name) info) p := by
  rw [Tracks, RunEnds, putToHashSet, bind_run_of_ok (get_run p)]
  cases p.heap.sets id with
  | none => trivial
  | some table => rfl

private theorem enter_tracks {id : Nat} {name : CStr} {info : VarInfo} {next : PUnit → ParseM α}
    (ahead : Ahead whole (.enter name :: agenda) p)
    (second : ∀ q, q.tok = p.tok → Ahead whole agenda q → Tracks whole post (next ⟨⟩) q) :
    Tracks whole post (putToHashSet id name info >>= next) p := by
  cases name with
  | none => exact ahead.lacks rfl
  | some name =>
      have entered : Ahead whole agenda p := ahead.stays rfl
      apply RunEnds.bind enter_ends
      intro _ q same
      exact second q same (entered.moved same)

private theorem append_tracks {tail : Option (List AstNode)} {node : AstNode}
    {next : Option (List AstNode) → ParseM α} (ahead : Ahead whole (.append tail.isSome :: agenda) p)
    (second : ∀ nodes, tail.isSome → Ahead whole agenda p → Tracks whole post (next (some nodes)) p) :
    Tracks whole post (addNode tail (some node) >>= next) p := by
  cases tail with
  | none => exact ahead.lacks rfl
  | some nodes => exact second _ rfl (ahead.stays rfl)

private theorem initHashSet_tracks {next : Nat → ParseM α} (ahead : Ahead whole agenda p)
    (second : ∀ id q, Ahead whole agenda q → Tracks whole post (next id) q) :
    Tracks whole post (initHashSet >>= next) p := second _ _ (ahead.moved rfl)

private theorem modify_tracks {change : Parser → Parser} {next : PUnit → ParseM α}
    (ahead : Ahead whole agenda p) (tok : (change p).tok = p.tok)
    (second : Ahead whole agenda (change p) → Tracks whole post (next ⟨⟩) (change p)) :
    Tracks whole post (modify change >>= next) p := second (ahead.moved tok)

/-! Expressions, by induction on the fuel. -/

/-- An expression was read up to a token that does not belong to it. -/
def ExprTracked (whole : Prop) (agenda : List Part) (prec : Precedence) (_ : AstNode) (p : Parser) : Prop :=
  Ahead whole (.tail :: agenda) p ∧ StopsAt prec p.tok.head?

/-- The expression parsers, from `p`. -/
structure ExprTracks (fuel : Nat) (whole : Prop) (p : Parser) : Prop where
  expr : ∀ prec agenda, Ahead whole (.expr :: agenda) p →
    Tracks whole (ExprTracked whole agenda prec) (parseExprF fuel prec) p
  loop : ∀ prec left agenda, Ahead whole (.tail :: agenda) p →
    Tracks whole (ExprTracked whole agenda prec) (parseExprLoop fuel prec left) p
  call : ∀ agenda, Ahead whole (.call :: agenda) p →
    Tracks whole (fun _ => Ahead whole agenda) (parseFunctionCallS fuel) p
  args : ∀ agenda, Ahead whole (.args :: agenda) p →
    Tracks whole (fun _ => Ahead whole agenda) (parseCallArgs fuel) p
  unary : ∀ agenda, Ahead whole (.any :: .expr :: agenda) p →
    Tracks whole (fun _ => Ahead whole (.tail :: agenda)) (parseUnaryLopS fuel) p
  left : ∀ agenda, Ahead whole (.expr :: agenda) p →
    Tracks whole (fun _ => Ahead whole (.tail :: agenda)) (parseLeftF fuel) p

/-- With no precedence asked for, what comes next is no operator. -/
theorem ExprTracked.closes {node : AstNode} (ends : ExprTracked whole agenda precNone node p) :
    Ahead whole agenda p := by
  obtain ⟨ahead, stops⟩ := ends
  cases tok : p.tok with
  | nil =>
      refine ahead.leaves ?_ tok
      rw [tok]
      rfl
  | cons token rest =>
      obtain ⟨known, loose⟩ := stops token (by rw [tok]; rfl)
      have closer : getOpPrec token.kind = precNone := by
        by_contra operator
        have above : precNone < getOpPrec token.kind :=
          of_decide_eq_true (ExprText.isBinaryOp_of_known known operator)
        exact absurd (loose.resolve_left operator) above.not_gt
      refine ahead.leaves ?_ tok
      rw [tok]
      exact (if_neg known).trans (if_pos closer)

private theorem parseExprLoop_tracks {fuel : Nat} (ih : ∀ p, ExprTracks fuel whole p) (prec : Precedence)
    (left : AstNode) (ahead : Ahead whole (.tail :: agenda) p) :
    Tracks whole (ExprTracked whole agenda prec) (parseExprLoop (fuel + 1) prec left) p := by
  apply curr_ends
  · intro ended
    exact ⟨ahead, by simp [StopsAt, ended]⟩
  intro token rest at_
  have turn : Part.turn .tail p.tok = Part.operator (token :: rest) := by rw [at_]; rfl
  dsimp only
  split
  next unknown => exact ahead.stops (turn.trans (if_pos unknown))
  next known =>
    split
    next loose => exact ⟨ahead, by simp [StopsAt, at_, EndsOperand, known, loose]⟩
    next operator =>
      rw [not_or] at operator
      apply skip_ends at_
      have right : Ahead whole (.expr :: agenda) (p.reading rest) :=
        ahead.opens (turn.trans ((if_neg known).trans (if_neg operator.1))) rfl
      apply RunEnds.bind ((ih _).expr _ agenda right)
      rintro node q ⟨ahead, -⟩
      exact (ih q).loop prec _ agenda ahead

private theorem parseFunctionCallS_tracks {fuel : Nat} (ih : ∀ p, ExprTracks fuel whole p)
    (ahead : Ahead whole (.call :: agenda) p) :
    Tracks whole (fun _ => Ahead whole agenda) (parseFunctionCallS (fuel + 1)) p := by
  apply tokField_tracks ahead rfl
  intro name rest at_
  apply skip_ends at_
  have turn : Part.turn .call p.tok = .opens [.expect .oPren, .args, .expect .cPren] rest := by
    rw [at_]
    rfl
  apply expect_tracks (ahead.opens (q := p.reading rest) turn rfl)
  intro q ahead
  apply RunEnds.bind ((ih q).args _ ahead)
  intro args q' ahead
  apply expect_tracks ahead
  exact fun _ ahead => ahead

private theorem parseCallArgs_tracks {fuel : Nat} (ih : ∀ p, ExprTracks fuel whole p)
    (ahead : Ahead whole (.args :: agenda) p) :
    Tracks whole (fun _ => Ahead whole agenda) (parseCallArgs (fuel + 1)) p := by
  apply tokField_tracks ahead rfl
  intro token rest at_
  split
  next closes =>
    exact ahead.leaves (by rw [at_]; exact Part.before_of_next closes) at_
  next other =>
    have none_ : NextNot .cPren (token :: rest) := by simpa [NextNot] using other
    have items : Ahead whole (.expr :: .optional .comma :: .args :: agenda) p :=
      ahead.opens (by rw [at_]; exact Part.before_of_not none_) at_
    apply RunEnds.bind ((ih p).expr precNone _ items)
    intro arg q ends
    have more : ∀ q, Ahead whole (.args :: agenda) q →
        Tracks whole (fun _ => Ahead whole agenda) (do return arg :: (← parseCallArgs fuel)) q := by
      intro q ahead
      apply RunEnds.bind ((ih q).args agenda ahead)
      exact fun _ _ ahead => ahead
    apply behind_tracks ends.closes rfl
    · exact more q
    · intro comma rest' at_' ahead
      exact skip_ends at_' (more _ ahead)

private theorem parseLeftF_tracks {fuel : Nat} (ih : ∀ p, ExprTracks fuel whole p)
    (ahead : Ahead whole (.expr :: agenda) p) :
    Tracks whole (fun _ => Ahead whole (.tail :: agenda)) (parseLeftF (fuel + 1)) p := by
  apply current_ends (ahead.ended rfl)
  intro token rest at_
  apply ppeak_ends
  have turn : Part.turn .expr p.tok = Part.left token rest := by rw [at_]; rfl
  split
  next opens =>
    have inner : Ahead whole (.expect .oPren :: .expr :: .expect .cPren :: .tail :: agenda) p :=
      ahead.opens (turn.trans (if_pos opens)) at_
    apply expect_tracks inner
    intro q ahead
    apply RunEnds.bind ((ih q).expr precNone _ ahead)
    intro node q' ends
    apply expect_tracks ends.closes
    exact fun _ ahead => ahead
  next other =>
    split
    next called =>
      rw [at_] at called
      exact (ih p).call _ (ahead.opens (turn.trans ((if_neg other).trans (if_pos called))) at_)
    next uncalled =>
      rw [at_] at uncalled
      have turn := turn.trans ((if_neg other).trans (if_neg uncalled))
      split
      next op => exact (ih p).unary agenda (ahead.opens (turn.trans (if_pos op)) at_)
      next noOp =>
        have operand : Ahead whole (.index :: .tail :: agenda) (p.reading rest) :=
          ahead.opens (turn.trans (if_neg noOp)) rfl
        apply parseAtomF_ends at_
        apply tokField_tracks operand rfl
        intro opened rest' at_'
        split
        next opens =>
          apply skip_ends at_'
          have turn : Part.turn .index (p.reading rest).tok = .opens [.expr, .expect .cBracket] rest' := by
            rw [at_']
            exact Part.behind_of_next opens
          apply RunEnds.bind ((ih _).expr precNone _ (operand.opens turn rfl))
          intro node q ends
          apply expect_tracks ends.closes
          exact fun _ ahead => ahead
        next none_ => exact operand.leaves (by rw [at_']; exact if_neg none_) at_'

private theorem exprTracks (fuel : Nat) (whole : Prop) (p : Parser) : ExprTracks fuel whole p := by
  induction fuel generalizing p with
  | zero => constructor <;> intros <;> trivial
  | succ fuel ih =>
      constructor
      case expr =>
        intro prec agenda ahead
        apply RunEnds.bind ((ih p).left agenda ahead)
        exact fun left q ahead => (ih q).loop prec left agenda ahead
      case loop => exact fun prec left agenda ahead => parseExprLoop_tracks ih prec left ahead
      case call => exact fun agenda ahead => parseFunctionCallS_tracks ih ahead
      case args => exact fun agenda ahead => parseCallArgs_tracks ih ahead
      case unary =>
        intro agenda ahead
        apply pconsume_ends (ahead.ended rfl)
        intro op rest at_
        have operand : Ahead whole (.expr :: agenda) (p.reading rest) := ahead.leaves (by rw [at_]; rfl) rfl
        apply RunEnds.bind ((ih _).left agenda operand)
        exact fun _ _ ahead => ahead
      case left => exact fun agenda ahead => parseLeftF_tracks ih ahead

private theorem expr_tracks {fuel : Nat} {next : AstNode → ParseM α} (ahead : Ahead whole (.expr :: agenda) p)
    (second : ∀ node q, Ahead whole agenda q → Tracks whole post (next node) q) :
    Tracks whole post (parseExprF fuel precNone >>= next) p := by
  apply RunEnds.bind ((exprTracks fuel whole p).expr precNone agenda ahead)
  exact fun node q ends => second node q ends.closes

/-! Declarations and statements. -/

private theorem parseAutoSize_tracks (ahead : Ahead whole (.autoSize :: agenda) p) :
    Tracks whole (fun _ => Ahead whole agenda) parseAutoSize p := by
  apply behind_tracks ahead rfl
  · exact fun ahead => ahead
  · intro opened rest at_ ahead
    apply skip_ends at_
    apply tokField_tracks ahead rfl
    intro size rest' _
    apply expect_tracks ahead
    intro q ahead
    apply expect_tracks ahead
    exact fun _ ahead => ahead

private theorem parseAutoLoop_tracks {fuel symtab : Nat} {tail : Option (List AstNode)}
    (ahead : Ahead whole (.autos tail.isSome :: agenda) p) :
    Tracks whole (fun tail' q => Ahead whole agenda q ∧ tail'.isSome) (parseAutoLoop fuel symtab tail) p := by
  induction fuel generalizing tail p with
  | zero => trivial
  | succ fuel ih =>
      apply tokField_tracks ahead rfl
      intro name rest at_
      have turn : Part.turn (.autos tail.isSome) p.tok = .opens [.expect .identifier, .autoSize,
          .enter name.lexeme, .append tail.isSome, .moreAutos tail.isSome] p.tok := by
        rw [at_]
        rfl
      apply expect_tracks (ahead.stays turn)
      intro q ahead
      apply RunEnds.bind (parseAutoSize_tracks ahead)
      intro size q ahead
      apply enter_tracks ahead
      intro q _ ahead
      apply append_tracks ahead
      intro nodes listed ahead
      rw [listed] at ahead
      apply behind_tracks ahead rfl
      · exact fun ahead => ⟨ahead, rfl⟩
      · intro comma rest' at_' ahead
        exact skip_ends at_' (ih ahead)

private theorem parseExtrnLoop_tracks {fuel : Nat} {tail : Option (List AstNode)}
    (ahead : Ahead whole (.externs tail.isSome :: agenda) p) :
    Tracks whole (fun tail' q => Ahead whole agenda q ∧ tail'.isSome) (parseExtrnLoop fuel tail) p := by
  induction fuel generalizing tail p with
  | zero => trivial
  | succ fuel ih =>
      apply tokField_tracks ahead rfl
      intro name rest at_
      apply skip_ends at_
      have turn : Part.turn (.externs tail.isSome) p.tok =
          .opens [.optional .comma, .append tail.isSome, .moreExterns tail.isSome] rest := by
        rw [at_]
        rfl
      have appended : ∀ q, Ahead whole (.append tail.isSome :: .moreExterns tail.isSome :: agenda) q →
          Tracks whole (fun tail' q => Ahead whole agenda q ∧ tail'.isSome)
            (do
              let tail ← addNode tail (some (.extrn name.lexeme))
              if ← isKind .semicolon then return tail else parseExtrnLoop fuel tail) q := by
        intro q ahead
        apply append_tracks ahead
        intro nodes listed ahead
        rw [listed] at ahead
        apply before_tracks ahead rfl
        · exact fun ahead => ih ahead
        · exact fun ahead => ⟨ahead, rfl⟩
      apply behind_tracks (p := p.reading rest) (ahead.opens turn rfl) rfl
      · exact appended _
      · intro comma rest' at_' ahead
        exact skip_ends at_' (appended _ ahead)

private theorem parseAutoS_tracks {fuel symtab : Nat} {tail : Option (List AstNode)}
    (ahead : Ahead whole (.expect .auto :: .autos tail.isSome :: .expect .semicolon :: agenda) p) :
    Tracks whole (fun tail' q => Ahead whole agenda q ∧ tail'.isSome) (parseAutoS fuel symtab tail) p := by
  apply expect_tracks ahead
  intro q ahead
  apply RunEnds.bind (parseAutoLoop_tracks ahead)
  rintro tail' q ⟨ahead, listed⟩
  apply expect_tracks ahead
  exact fun _ ahead => ⟨ahead, listed⟩

private theorem parseExtrnS_tracks {fuel : Nat} {tail : Option (List AstNode)}
    (ahead : Ahead whole (Part.externS tail.isSome ++ agenda) p) :
    Tracks whole (fun tail' q => Ahead whole agenda q ∧ tail'.isSome) (parseExtrnS fuel tail) p := by
  apply expect_tracks ahead
  intro q ahead
  apply RunEnds.bind (parseExtrnLoop_tracks ahead)
  rintro tail' q ⟨ahead, listed⟩
  apply expect_tracks ahead
  exact fun _ ahead => ⟨ahead, listed⟩

private theorem parseGotoS_tracks
    (ahead : Ahead whole (.expect .goto :: .any :: .expect .semicolon :: agenda) p) :
    Tracks whole (fun _ => Ahead whole agenda) parseGotoS p := by
  apply expect_tracks ahead
  intro q ahead
  apply tokField_tracks ahead rfl
  intro name rest at_
  apply skip_ends at_
  have closing : Ahead whole (.expect .semicolon :: agenda) (q.reading rest) :=
    ahead.leaves (by rw [at_]; rfl) rfl
  apply expect_tracks closing
  exact fun _ ahead => ahead

private theorem parseReturnS_tracks {fuel : Nat}
    (ahead : Ahead whole (.expect .return_ :: .expr :: .expect .semicolon :: agenda) p) :
    Tracks whole (fun _ => Ahead whole agenda) (parseReturnS fuel) p := by
  apply expect_tracks ahead
  intro q ahead
  apply expr_tracks ahead
  intro node q ahead
  apply expect_tracks ahead
  exact fun _ ahead => ahead

private theorem parseLableS_tracks {colon : Token} (at_ : p.tok = token :: colon :: rest)
    (ahead : Ahead whole (.enter token.lexeme :: .any :: .any :: agenda) p) :
    Tracks whole (fun _ => Ahead whole agenda) parseLableS p := by
  apply tokField_ends (by rw [at_]; nofun)
  intro name rest' at_'
  cases at_.symm.trans at_'
  change Tracks whole _ (putToHashSet p.tLableTab token.lexeme _ >>= _) p
  apply enter_tracks ahead
  intro q same ahead
  rw [at_] at same
  apply skip_ends same
  apply skip_ends (rfl : (q.reading (colon :: rest)).tok = colon :: rest)
  have second : Ahead whole (.any :: agenda) (q.reading (colon :: rest)) :=
    ahead.leaves (by rw [same]; rfl) rfl
  exact second.leaves rfl rfl

private theorem parseExprS_tracks {fuel : Nat} {listed : Bool} (at_ : p.tok = token :: rest)
    (ahead : Ahead whole (Part.exprS listed token ++ agenda) p) :
    Tracks whole (fun node q => Ahead whole (if node.isSome then agenda else .append listed :: agenda) q)
      (parseExprS fuel) p := by
  apply isKind_ends
  · intro none_
    have other : token.kind ≠ .comma := none_ token (by rw [at_]; rfl)
    rw [Part.exprS, if_neg other] at ahead
    apply expr_tracks ahead
    intro node q ahead
    apply expect_tracks ahead
    exact fun _ ahead => ahead
  · intro comma rest' at_' same
    cases at_.symm.trans at_'
    rw [Part.exprS, if_pos same] at ahead
    apply skip_ends at_
    exact ahead.leaves (by rw [at_]; rfl) rfl

/-- A statement that is no node of its own is one that needs the list of a block. -/
def StatementTracked (whole : Prop) (agenda : List Part) (tail : Option (List AstNode))
    (result : Option AstNode × Option (List AstNode)) (p : Parser) : Prop :=
  Ahead whole (if result.1.isSome then agenda else .append tail.isSome :: agenda) p ∧
    (tail.isSome → result.2.isSome)

/-- The parsers of statements, from `p`. -/
structure StatementsTrack (fuel : Nat) (whole : Prop) (p : Parser) : Prop where
  statement : ∀ parent symtab tail agenda, Ahead whole (.statement tail.isSome :: agenda) p →
    Tracks whole (StatementTracked whole agenda tail) (parseStatementsF fuel parent symtab tail) p
  scope : ∀ parent symtab agenda, Ahead whole (.block :: agenda) p →
    Tracks whole (fun _ => Ahead whole agenda) (parseScopeF fuel parent symtab) p
  body : ∀ scopeN before agenda, Ahead whole (.body :: agenda) p →
    Tracks whole (fun _ => Ahead whole agenda) (parseScopeBody fuel scopeN before) p
  ifS : ∀ statementKind parent agenda, Ahead whole (Part.ifS ++ agenda) p →
    Tracks whole (fun _ => Ahead whole agenda) (parseIfS fuel statementKind parent) p
  chain : ∀ parent agenda, Ahead whole (.chain :: agenda) p →
    Tracks whole (fun _ => Ahead whole agenda) (parseIfChain fuel parent) p
  while_ : ∀ parent agenda, Ahead whole (Part.whileS ++ agenda) p →
    Tracks whole (fun _ => Ahead whole agenda) (parseWhileS fuel parent) p

private theorem parseStatementsF_tracks {fuel : Nat} (ih : ∀ p, StatementsTrack fuel whole p)
    (parent : List Nat) (symtab : Nat) {tail : Option (List AstNode)}
    (ahead : Ahead whole (.statement tail.isSome :: agenda) p) :
    Tracks whole (StatementTracked whole agenda tail) (parseStatementsF (fuel + 1) parent symtab tail) p := by
  apply tokField_tracks ahead rfl
  intro token rest at_
  apply ppeak_ends
  have ahead : Ahead whole (Part.statements tail.isSome token rest ++ agenda) p :=
    ahead.opens (by rw [at_]; rfl) at_
  have node_tracks : ∀ {action : ParseM AstNode}, Tracks whole (fun _ => Ahead whole agenda) action p →
      Tracks whole (StatementTracked whole agenda tail) (do return (some (← action), tail)) p := by
    intro action tracks
    apply RunEnds.bind tracks
    exact fun _ _ ahead => ⟨ahead, fun listed => listed⟩
  have tail_tracks : ∀ {action : ParseM (Option (List AstNode))},
      Tracks whole (fun tail' q => Ahead whole (.append tail.isSome :: agenda) q ∧ tail'.isSome) action p →
      Tracks whole (StatementTracked whole agenda tail) (do return (none, ← action)) p := by
    intro action tracks
    apply RunEnds.bind tracks
    exact fun _ _ ⟨ahead, listed⟩ => ⟨ahead, fun _ => listed⟩
  have expr_tracks (ahead : Ahead whole (Part.exprS tail.isSome token ++ agenda) p) :
      Tracks whole (StatementTracked whole agenda tail) (do return (← parseExprS fuel, tail)) p := by
    apply RunEnds.bind (parseExprS_tracks at_ ahead)
    exact fun _ _ ahead => ⟨ahead, fun listed => listed⟩
  cases kind : token.kind
  all_goals simp only [Part.statements, kind] at ahead
  case auto => exact tail_tracks (parseAutoS_tracks ahead)
  case extrn =>
    rw [List.append_assoc] at ahead
    exact tail_tracks (parseExtrnS_tracks ahead)
  case goto => exact node_tracks (parseGotoS_tracks ahead)
  case oBrace =>
    apply initHashSet_tracks ahead
    intro id q ahead
    apply RunEnds.bind ((ih q).scope parent id agenda ahead)
    exact fun _ _ ahead => ⟨ahead, fun listed => listed⟩
  case return_ => exact node_tracks (parseReturnS_tracks ahead)
  case if_ => exact node_tracks ((ih p).ifS .if_ parent agenda ahead)
  case while_ => exact node_tracks ((ih p).while_ parent agenda ahead)
  case identifier =>
    have behind : p.tok.tail = rest := by rw [at_]; rfl
    rw [behind]
    dsimp only
    split
    next lable =>
      rw [if_pos lable] at ahead
      obtain ⟨colon, head, -⟩ := (Option.any_eq_true ..).mp lable
      obtain ⟨more, rfl⟩ := List.head?_eq_some_iff.mp head
      exact node_tracks (parseLableS_tracks at_ ahead)
    next noLable =>
      rw [if_neg noLable] at ahead
      exact expr_tracks ahead
  all_goals exact expr_tracks ahead

private theorem parseScopeBody_tracks {fuel : Nat} (ih : ∀ p, StatementsTrack fuel whole p)
    (scopeN : AstScope) (before : List AstNode) (ahead : Ahead whole (.body :: agenda) p) :
    Tracks whole (fun _ => Ahead whole agenda) (parseScopeBody (fuel + 1) scopeN before) p := by
  apply curr_ends
  · intro ended
    exact ahead.leaves (by rw [ended]; rfl) ended
  intro token rest at_
  dsimp only
  split
  next closes => exact ahead.leaves (by rw [at_]; exact Part.before_of_next closes) at_
  next other =>
    have none_ : NextNot .cBrace (token :: rest) := by simpa [NextNot] using other
    have items : Ahead whole (.statement true :: .body :: agenda) p :=
      ahead.opens (by rw [at_]; exact Part.before_of_not none_) at_
    apply RunEnds.bind ((ih p).statement scopeN.chain scopeN.symtab (some before) _ items)
    rintro ⟨statement, tail⟩ q ⟨ahead, listed⟩
    obtain ⟨nodes, rfl⟩ := Option.isSome_iff_exists.mp (listed rfl)
    cases statement with
    | none => exact (ih q).body scopeN nodes agenda (ahead.stays rfl)
    | some node => exact (ih q).body scopeN (nodes ++ [node]) agenda ahead

private theorem parseIfS_tracks {fuel : Nat} (ih : ∀ p, StatementsTrack fuel whole p)
    (statementKind : AstKind) (parent : List Nat) (ahead : Ahead whole (Part.ifS ++ agenda) p) :
    Tracks whole (fun _ => Ahead whole agenda) (parseIfS (fuel + 1) statementKind parent) p := by
  apply expect_tracks ahead
  intro q ahead
  apply expect_tracks ahead
  intro q ahead
  apply expr_tracks ahead
  intro condition q ahead
  apply expect_tracks ahead
  intro q ahead
  apply initHashSet_tracks ahead
  intro id q ahead
  apply RunEnds.bind ((ih q).scope parent id _ ahead)
  intro body q ahead
  apply RunEnds.bind ((ih q).chain parent _ ahead)
  exact fun _ _ ahead => ahead

private theorem parseIfChain_tracks {fuel : Nat} (ih : ∀ p, StatementsTrack fuel whole p)
    (parent : List Nat) (ahead : Ahead whole (.chain :: agenda) p) :
    Tracks whole (fun _ => Ahead whole agenda) (parseIfChain (fuel + 1) parent) p := by
  apply behind_tracks ahead rfl
  · exact fun ahead => ahead
  intro word rest at_ ahead
  apply skip_ends at_
  apply before_tracks ahead rfl
  · intro ahead
    apply initHashSet_tracks ahead
    intro id q ahead
    apply RunEnds.bind ((ih q).scope parent id agenda ahead)
    intro elseBody q ahead
    cases elseBody.scopeN? with
    | none => trivial
    | some scope => exact ahead
  · intro ahead
    apply RunEnds.bind ((ih _).ifS .elseIf parent agenda ahead)
    exact fun _ _ ahead => ahead

private theorem parseWhileS_tracks {fuel : Nat} (ih : ∀ p, StatementsTrack fuel whole p)
    (parent : List Nat) (ahead : Ahead whole (Part.whileS ++ agenda) p) :
    Tracks whole (fun _ => Ahead whole agenda) (parseWhileS (fuel + 1) parent) p := by
  apply initHashSet_tracks ahead
  intro id q ahead
  apply expect_tracks ahead
  intro q ahead
  apply expect_tracks ahead
  intro q ahead
  apply expr_tracks ahead
  intro condition q ahead
  apply expect_tracks ahead
  intro q ahead
  apply RunEnds.bind ((ih q).scope parent id _ ahead)
  exact fun _ _ ahead => ahead

private theorem statementsTrack (fuel : Nat) (whole : Prop) (p : Parser) : StatementsTrack fuel whole p := by
  induction fuel generalizing p with
  | zero => constructor <;> intros <;> trivial
  | succ fuel ih =>
      constructor
      case statement => exact fun parent symtab tail agenda ahead => parseStatementsF_tracks ih parent symtab ahead
      case scope =>
        intro parent symtab agenda ahead
        have opened : Ahead whole (.expect .oBrace :: .body :: .expect .cBrace :: agenda) p := ahead.stays rfl
        apply expect_tracks opened
        intro q ahead
        apply RunEnds.bind ((ih q).body ⟨symtab, parent⟩ [] _ ahead)
        intro body q ahead
        apply expect_tracks ahead
        exact fun _ ahead => ahead
      case body => exact fun scopeN before agenda ahead => parseScopeBody_tracks ih scopeN before ahead
      case ifS => exact fun kind parent agenda ahead => parseIfS_tracks ih kind parent ahead
      case chain => exact fun parent agenda ahead => parseIfChain_tracks ih parent ahead
      case while_ => exact fun parent agenda ahead => parseWhileS_tracks ih parent ahead

/-! The parts of the program that stand outside of functions, and the functions. -/

private theorem parseParams_tracks {fuel symtable params : Nat} (ahead : Ahead whole (.params :: agenda) p) :
    Tracks whole (fun _ => Ahead whole agenda) (parseParams fuel symtable params) p := by
  induction fuel generalizing params p with
  | zero => trivial
  | succ fuel ih =>
      apply tokField_tracks ahead rfl
      intro token rest at_
      split
      next closes => exact ahead.leaves (by rw [at_]; exact if_pos closes) at_
      next other =>
        apply tokField_tracks ahead rfl
        intro name rest' at_'
        cases at_.symm.trans at_'
        apply skip_ends at_
        have turn : Part.turn .params p.tok =
            .opens [.enter token.lexeme, .optional .comma, .params] rest := by
          rw [at_]
          exact if_neg other
        apply enter_tracks (p := p.reading rest) (ahead.opens turn rfl)
        intro q _ ahead
        apply behind_tracks ahead rfl
        · exact fun ahead => ih ahead
        · intro comma rest' at_' ahead
          exact skip_ends at_' (ih ahead)

private theorem parseFunctionS_tracks {fuel : Nat} {name : CStr}
    (ahead : Ahead whole (.expect .oPren :: .params :: .expect .cPren :: .statement false :: agenda) p) :
    Tracks whole (fun _ => Ahead whole agenda) (parseFunctionS fuel name) p := by
  apply initHashSet_tracks ahead
  intro symtable q ahead
  apply initHashSet_tracks ahead
  intro lableTable q ahead
  apply modify_tracks ahead rfl
  intro ahead
  apply expect_tracks ahead
  intro q ahead
  apply RunEnds.bind (parseParams_tracks ahead)
  intro params q ahead
  apply expect_tracks ahead
  intro q ahead
  apply RunEnds.bind ((statementsTrack fuel whole q).statement [symtable, q.globalTable] symtable none _ ahead)
  rintro ⟨statement, tail⟩ q ⟨ahead, -⟩
  cases statement with
  | none => exact ahead.lacks rfl
  | some body => exact ahead

private theorem parseGlobalSize_tracks (ahead : Ahead whole (.globalSize :: agenda) p) :
    Tracks whole (fun _ => Ahead whole agenda) parseGlobalSize p := by
  apply behind_tracks ahead rfl
  · exact fun ahead => ahead
  · intro opened rest at_ ahead
    apply skip_ends at_
    apply tokField_tracks ahead rfl
    intro size rest' at_'
    apply skip_ends at_'
    have closing : Ahead whole (.expect .cBracket :: agenda) ((p.reading rest).reading rest') :=
      ahead.leaves (by rw [at_']; rfl) rfl
    apply expect_tracks closing
    exact fun _ ahead => ahead

private theorem parseGlobalLoop_tracks {fuel : Nat} {name : CStr}
    (ahead : Ahead whole (.globals name :: agenda) p) :
    Tracks whole (fun _ => Ahead whole agenda) (parseGlobalLoop fuel name) p := by
  induction fuel generalizing name p with
  | zero => trivial
  | succ fuel ih =>
      have sized : Ahead whole (.globalSize :: .enter name :: .moreGlobals :: agenda) p := ahead.stays rfl
      apply RunEnds.bind (parseGlobalSize_tracks sized)
      intro size q ahead
      change Tracks whole _ (putToHashSet q.globalTable name _ >>= _) q
      apply enter_tracks ahead
      intro q _ ahead
      apply modify_tracks ahead rfl
      intro ahead
      apply behind_tracks ahead rfl
      · exact fun ahead => ahead
      · intro comma rest at_ ahead
        apply skip_ends at_
        apply tokField_tracks ahead rfl
        intro next rest' at_'
        apply skip_ends at_'
        have turn : Part.turn .nextGlobal rest = .opens [.globals next.lexeme] rest' := by
          change rest = _ at at_'
          rw [at_']
          rfl
        exact ih (ahead.opens turn rfl)

/-- With no more tokens there are no more parts, so that the whole was read. -/
private theorem parserLoop_tracks {fuel : Nat} (ahead : Ahead whole [.program] p) :
    Tracks whole (fun _ _ => whole) (parserLoop fuel) p := by
  induction fuel generalizing p with
  | zero => trivial
  | succ fuel ih =>
      apply curr_ends
      · intro ended
        have finished : Ahead whole [] p := ahead.leaves (by rw [ended]; rfl) ended
        exact finished.mpr (.done _)
      intro token rest at_
      dsimp only
      split
      next identifier =>
        apply skip_ends at_
        have turn : Part.turn .program p.tok = .opens [.declaration token.lexeme, .program] rest := by
          rw [at_]
          exact if_pos identifier
        have declared : Ahead whole [.declaration token.lexeme, .program] (p.reading rest) :=
          ahead.opens turn rfl
        apply tokField_tracks declared rfl
        intro next rest' at_'
        split
        next opened =>
          have turn : Part.turn (.declaration token.lexeme) (p.reading rest).tok =
              .opens [.expect .oPren, .params, .expect .cPren, .statement false] (p.reading rest).tok := by
            rw [at_']
            exact if_pos opened
          apply RunEnds.bind (parseFunctionS_tracks (declared.stays turn))
          intro function q ahead
          exact ih (p := { q with ast := q.ast ++ [function] }) (ahead.moved rfl)
        next noFunction =>
          have turn : Part.turn (.declaration token.lexeme) (p.reading rest).tok =
              .opens [.globals token.lexeme, .expect .semicolon] (p.reading rest).tok := by
            rw [at_']
            exact if_neg noFunction
          rw [parseGlobalS, bind_assoc]
          apply RunEnds.bind (parseGlobalLoop_tracks (declared.stays turn))
          intro _ q ahead
          apply expect_tracks ahead
          exact fun q ahead => ih ahead
      next other =>
        split
        next word =>
          have turn : Part.turn .program p.tok = .opens (Part.externS true ++ [.program]) p.tok := by
            rw [at_]
            exact (if_neg other).trans (if_pos word)
          have listed : Ahead whole (Part.externS (some p.ast).isSome ++ [.program]) p := ahead.opens turn rfl
          change Tracks whole _ (parseExtrnS fuel (some p.ast) >>= _) p
          apply RunEnds.bind (parseExtrnS_tracks listed)
          rintro tail q ⟨ahead, -⟩
          exact ih (p := { q with ast := tail.getD [] }) (ahead.moved rfl)
        next other' =>
          have turn : Part.turn .program p.tok = .opens [.program] rest := by
            rw [at_]
            exact (if_neg other).trans (if_neg other')
          apply modify_tracks ahead rfl
          exact fun ahead => skip_ends at_ (ih (ahead.opens turn rfl))

end

/-- The parser returns, or exits after a diagnostic: it reads no field of a null token and
stores no null name, which are errors of their own. -/
def ReturnsOrExits (tokens : List Token) : Prop :=
  match parser (initParser tokens) with
  | .ok _ _ => True
  | .error .exit p => p.stderr ≠ []
  | .error _ _ => False

/-- The parser stays inside its tokens exactly if they can be read through. -/
theorem parser_lastToken_iff (tokens : List Token) : ReturnsOrExits tokens ↔ ReadsThrough tokens := by
  have ahead : Ahead (ReadsThrough tokens) [.program] (initParser tokens) := Iff.rfl
  have tracks : Tracks (ReadsThrough tokens) (fun _ _ => ReadsThrough tokens) parser (initParser tokens) := by
    unfold Tracks RunEnds parser
    exact parserLoop_tracks ahead
  unfold ReturnsOrExits
  cases run : parser (initParser tokens) with
  | ok _ p => exact iff_of_true trivial (tracks.of_ok run)
  | error stop p =>
      have judged := tracks.of_error run
      rcases parser_stops run with rfl | rfl | ⟨rfl | rfl, -⟩
      · exact iff_of_true (parser_exits run) judged
      · exact iff_of_false id judged
      · exact iff_of_false id judged
      · exact iff_of_false id judged

/-- `f() { a b` is read up to `b`, which is no operator. -/
example : ReadsThrough [nameToken 'f', markToken .oPren, markToken .cPren, markToken .oBrace,
    nameToken 'a', nameToken 'b'] :=
  Readable.of_readsWithin (show readsWithin Part.turn 20 _ _ = true from rfl)

/-- `a, b`, where the diagnostic for the missing semicolon asks for the position of a null token. -/
def cutTokens : List Token := [nameToken 'a', markToken .comma, nameToken 'b']

theorem parser_lastToken_cut : ¬ ReturnsOrExits cutTokens := fun inside => inside

end Trident
