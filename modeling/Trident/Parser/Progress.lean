import Trident.Parser.Procedures
import Trident.Parser.Reading
import Trident.Parser.Rules

/-! The parser comes to an end: every function uses up tokens before it is called
again, so that the fuel is never exhausted. Diagnostics are only added, and an exit
has added one. -/

set_option autoImplicit false

namespace Trident

open Foundation

/-- At least `count` tokens were read, and diagnostics only added. -/
structure Advanced (count : Nat) (p p' : Parser) : Prop where
  tok : p'.tok <:+ p.tok
  fewer : p'.tok.length + count ≤ p.tok.length
  stderr : p.stderr <+: p'.stderr

/-- The parser ended early, not for lack of fuel. An exit comes with a diagnostic, and
a null token is met behind the last one. -/
structure Halted (p : Parser) (stop : Stop) (p' : Parser) : Prop where
  fuel : stop ≠ .fuel
  stderr : p.stderr <+: p'.stderr
  exit : stop = .exit → p.stderr.length < p'.stderr.length
  nullToken : stop = .fault .nullToken → p'.tok = []

section

variable {p p' p'' : Parser} {stop : Stop} {count less : Nat}

theorem Advanced.refl (p : Parser) : Advanced 0 p p :=
  ⟨List.suffix_refl _, Nat.le_refl _, List.prefix_refl _⟩

theorem Advanced.trans (first : Advanced count p p') (second : Advanced less p' p'') :
    Advanced (count + less) p p'' where
  tok := second.tok.trans first.tok
  fewer := by
    have fewer := first.fewer
    have fewer' := second.fewer
    omega
  stderr := first.stderr.trans second.stderr

theorem Advanced.mono (advanced : Advanced count p p') (le : less ≤ count) : Advanced less p p' :=
  ⟨advanced.tok, Nat.le_trans (Nat.add_le_add_left le _) advanced.fewer, advanced.stderr⟩

theorem Halted.after (advanced : Advanced count p p') (halted : Halted p' stop p'') :
    Halted p stop p'' where
  fuel := halted.fuel
  stderr := advanced.stderr.trans halted.stderr
  exit := fun same => Nat.lt_of_le_of_lt advanced.stderr.length_le (halted.exit same)
  nullToken := halted.nullToken

theorem Halted.fault {fault : Fault} (tokens : fault = .nullToken → p.tok = []) :
    Halted p (.fault fault) p where
  fuel := nofun
  stderr := List.prefix_refl _
  exit := nofun
  nullToken := fun same => tokens (Stop.fault.inj same)

end

/-- The run from `p` reads at least `count` tokens if it succeeds. -/
abbrev Finishes {α : Type} (count : Nat) (p : Parser) (action : ParseM α) : Prop :=
  RunEnds (fun _ => Advanced count p) (Halted p) action p

/-- The sets `ids`, the label table and the table of globals are there. -/
structure SetsLive (ids : List Nat) (p : Parser) : Prop where
  sets : ∀ id ∈ ids, p.heap.Live id
  lables : p.heap.Live p.tLableTab
  globals : p.heap.Live p.globalTable

/-- At least `count` tokens were read, and no set was lost. -/
structure Moved (count : Nat) (p p' : Parser) : Prop extends Advanced count p p' where
  sets : ∀ ids, SetsLive ids p → SetsLive ids p'

section

variable {p p' p'' : Parser} {count less : Nat} {ids ids' : List Nat}

theorem SetsLive.subset (live : SetsLive ids p) (subset : ids' ⊆ ids) : SetsLive ids' p :=
  ⟨fun id member => live.sets id (subset member), live.lables, live.globals⟩

theorem Moved.refl (p : Parser) : Moved 0 p p := ⟨.refl p, fun _ live => live⟩

theorem Moved.trans (first : Moved count p p') (second : Moved less p' p'') :
    Moved (count + less) p p'' :=
  ⟨first.toAdvanced.trans second.toAdvanced, fun ids live => second.sets ids (first.sets ids live)⟩

theorem Moved.mono (moved : Moved count p p') (le : less ≤ count) : Moved less p p' :=
  ⟨moved.toAdvanced.mono le, moved.sets⟩

end

/-! The contract of the parser's procedures. -/

/-- Calls fall in the number of tokens, and in this number where none was read. A scope,
a conditional and a loop begin with a token that is read, unless the one that is there is
not the one expected. -/
def Routine.extra : Routine → Option TokenKind → Nat
  | .parseExprF, _ => 3
  | .parseExprLoop, _ | .parseFunctionCallS, _ | .parseUnaryLopS, _ => 1
  | .parseCallArgs, _ => 4
  | .parseLeftF, _ => 2
  | .parseAutoLoop, _ | .parseExtrnLoop, _ | .parseGlobalLoop, _ | .parseParams, _
  | .parserLoop, _ => 1
  | .parseStatementsF, _ => 4
  | .parseScopeF, kind => if kind = some .oBrace then 1 else 6
  | .parseScopeBody, _ => 5
  | .parseIfS, kind => if kind = some .if_ then 1 else 4
  | .parseIfChain, _ => 1
  | .parseWhileS, kind => if kind = some .while_ then 1 else 4
  | .putToHashSet, _ | .addNode, _ => 0

/-- The number of tokens that are read at least. -/
def Routine.reads : Routine → Option TokenKind → Nat
  | .parseExprF, _ | .parseFunctionCallS, _ | .parseUnaryLopS, _ | .parseLeftF, _ => 1
  | .parseStatementsF, _ | .parseIfS, _ | .parseWhileS, _ => 1
  | .parseScopeF, kind => if kind = some .oBrace then 1 else 0
  | _, _ => 0

/-- The kind of the token at the position of the parser. -/
def Parser.kind? (p : Parser) : Option TokenKind := p.tok.head?.map Token.kind

namespace Proc

def rank (proc : Proc) (p : Parser) : Nat := 8 * p.tok.length + proc.routine.extra p.kind?

def reads (proc : Proc) (p : Parser) : Nat := proc.routine.reads p.kind?

/-- The sets that the procedure writes to. -/
def sets : Proc → List Nat
  | .parseAutoLoop symtab _ | .parseStatementsF _ symtab _ | .parseScopeF _ symtab => [symtab]
  | .parseScopeBody scopeN _ => [scopeN.symtab]
  | .parseParams symtable _ => [symtable]
  | .putToHashSet id _ _ => [id]
  | _ => []

/-- What the callers use of the result. -/
def Gives (p : Parser) : (proc : Proc) → proc.Result → Parser → Prop
  | .parseScopeF .., node, _ => node.scopeN?.isSome
  | .putToHashSet .., _, p' => p'.tok = p.tok
  | .addNode tail node, nodes, _ => ∃ before last, tail = some before ∧ node = some last ∧
      nodes = some (before ++ [last])
  | _, _, _ => True

/-- The errors that the own steps of a procedure raise. -/
def raises : Proc → Stop → Prop
  | .putToHashSet _ name _, stop => stop = .fault .nullName ∧ name = none
  | .addNode tail node, stop => stop = .fault .nullNode ∧ (tail = none ∨ node = none)
  | _, stop => stop = .exit ∨ stop = .fault .nullToken

end Proc

def parserContract : Contract Stop Parser Proc.Result where
  pre proc p := SetsLive proc.sets p
  post proc p value p' := Moved (proc.reads p) p p' ∧ proc.Gives p value p'
  failed _ p := Halted p
  calls proc p callee q := q.tok <:+ p.tok ∧ callee.rank q < proc.rank p
  raises := Proc.raises
  rank := Proc.rank

/-- From `p`, where the sets `ids` are there, the text reads at least `count` tokens if it
succeeds, and calls procedures of a rank below `limit` only. -/
def Settles {α : Type} (limit : Nat) (ids : List Nat) (gives : α → Parser → Prop) (count : Nat)
    (p : Parser) (text : ParseText α) : Prop :=
  SetsLive ids p →
    text.Meets parserContract (fun callee q => q.tok <:+ p.tok ∧ callee.rank q < limit)
      (fun stop => stop = .exit ∨ stop = .fault .nullToken)
      (fun value p' => Moved count p p' ∧ gives value p') (Halted p) p

namespace Settles

variable {α β : Type} {limit count less : Nat} {ids : List Nat} {gives : α → Parser → Prop}
  {gives' : β → Parser → Prop} {p : Parser} {token : Token} {rest : List Token}

theorem pure {value : α} (holds : gives value p) : Settles limit ids gives 0 p (pure value) :=
  fun _ => ⟨.refl p, holds⟩

theorem bind {text : ParseText α} {next : α → ParseText β}
    (first : Settles limit ids gives less p text)
    (second : ∀ value p', Moved less p p' → gives value p' →
      Settles limit ids gives' (count - less) p' (next value)) :
    Settles limit ids gives' count p (text >>= next) := by
  intro live
  apply ProcBody.Meets.bind (first live)
  intro value p' ⟨moved, given⟩
  apply (second value p' moved given (moved.sets ids live)).mono
  · intro callee q ⟨suffix, below⟩
    exact ⟨suffix.trans moved.tok, below⟩
  · intro value p'' ⟨later, given⟩
    exact ⟨(moved.trans later).mono (by omega), given⟩
  · intro stop p'' halted
    exact halted.after moved.toAdvanced

theorem map {convert : α → β} {text : ParseText α} (settles : Settles limit ids gives count p text) :
    Settles limit ids (fun _ _ => True) count p (text >>= fun value => Pure.pure (convert value)) := by
  apply bind settles
  intro _ _ _ _
  rw [Nat.sub_self]
  exact pure trivial

/-- The label table is there, and so is the table of globals. -/
theorem lables {text : ParseText α} (settles : Settles limit (p.tLableTab :: ids) gives count p text) :
    Settles limit ids gives count p text :=
  fun live => settles
    ⟨List.forall_mem_cons.mpr ⟨live.lables, live.sets⟩, live.lables, live.globals⟩

theorem globals {text : ParseText α}
    (settles : Settles limit (p.globalTable :: ids) gives count p text) :
    Settles limit ids gives count p text :=
  fun live => settles
    ⟨List.forall_mem_cons.mpr ⟨live.globals, live.sets⟩, live.lables, live.globals⟩

theorem weaken {text : ParseText α} (settles : Settles limit ids gives count p text)
    (le : less ≤ count) : Settles limit ids gives less p text := by
  intro live
  apply (settles live).mono
  · exact fun _ _ made => made
  · exact fun _ _ ⟨moved, given⟩ => ⟨moved.mono le, given⟩
  · exact fun _ _ halted => halted

/-- A single step of the code. -/
theorem lift {action : ParseM α}
    (ends : SetsLive ids p → RunEnds (fun value p' => Moved count p p' ∧ gives value p')
      (fun stop p' => (stop = .exit ∨ stop = .fault .nullToken) ∧ Halted p stop p') action p) :
    Settles limit ids gives count p (liftM action) := ends

theorem call {proc : Proc} (subset : proc.sets ⊆ ids) (below : proc.rank p < limit) :
    Settles limit ids (proc.Gives p) (proc.reads p) p proc.call := by
  intro live
  refine ⟨live.subset subset, ⟨List.suffix_refl _, below⟩, ?_, ?_⟩
  · exact fun _ _ given => given
  · exact fun _ _ halted => halted

section Tokens

theorem report (diag : Diag) :
    Settles limit ids (fun _ p' => p'.tok = p.tok) 0 p (liftM (report diag)) := by
  apply lift
  intro _
  refine ⟨⟨⟨List.suffix_refl _, Nat.le_refl _, List.prefix_append ..⟩, ?_⟩, rfl⟩
  exact fun _ ⟨sets, lables, globals⟩ => ⟨sets, lables, globals⟩

/-- A diagnosed exit. -/
theorem exit (diag : Diag) :
    Settles limit ids gives count p (do
      Trident.report diag
      throw (m := ParseM) .exit) := by
  intro _
  refine ⟨.inl rfl, nofun, List.prefix_append .., ?_, nofun⟩
  intro _
  change p.stderr.length < (p.stderr ++ [diag]).length
  simp

theorem get {next : Parser → ParseText β} (second : Settles limit ids gives' count p (next p)) :
    Settles limit ids gives' count p (MonadState.get >>= next) := second

theorem curr {next : Option Token → ParseText β}
    (ended : p.tok = [] → Settles limit ids gives' count p (next none))
    (at_ : ∀ token rest, p.tok = token :: rest →
      Settles limit ids gives' count p (next (some token))) :
    Settles limit ids gives' count p (liftM curr >>= next) := by
  intro live
  apply ProcBody.Meets.step
  rw [← bind_pure Trident.curr]
  apply curr_ends
  · exact fun empty => ended empty live
  · exact fun token rest found => at_ token rest found live

theorem ppeak {next : Option Token → ParseText β}
    (second : ∀ token, Settles limit ids gives' count p (next token)) :
    Settles limit ids gives' count p (liftM ppeak >>= next) := second _

theorem tokField {next : Token → ParseText β}
    (at_ : ∀ token rest, p.tok = token :: rest → Settles limit ids gives' count p (next token)) :
    Settles limit ids gives' count p (liftM tokField >>= next) := by
  intro live
  apply ProcBody.Meets.step
  rw [← bind_pure Trident.tokField]
  apply tokField_ends
  · exact fun empty => ⟨.inr rfl, .fault fun _ => empty⟩
  · exact fun token rest found => at_ token rest found live

/-- `curr(p)->...` -/
theorem current {next : Token → ParseText β}
    (at_ : ∀ token rest, p.tok = token :: rest → Settles limit ids gives' count p (next token)) :
    Settles limit ids gives' count p (do
      let token ← Trident.curr
      let token ← deref token
      next token) := by
  apply curr
  · intro empty _
    exact ⟨.inr rfl, .fault fun _ => empty⟩
  · exact at_

theorem isKind {kind : TokenKind} {next : Bool → ParseText β}
    (other : Settles limit ids gives' count p (next false))
    (found : ∀ token rest, p.tok = token :: rest → token.kind = kind →
      Settles limit ids gives' count p (next true)) :
    Settles limit ids gives' count p (liftM (isKind kind) >>= next) := by
  intro live
  apply ProcBody.Meets.step
  rw [← bind_pure (Trident.isKind kind)]
  apply isKind_ends
  · exact fun _ => other live
  · exact fun token rest at_ same => found token rest at_ same live

theorem skip (at_ : p.tok = token :: rest) :
    Settles limit ids (fun _ _ => True) 1 p (liftM (discard pconsume)) := by
  apply lift
  intro _
  refine RunEnds.discard ⟨⟨⟨List.tail_suffix _, ?_, List.prefix_refl _⟩, ?_⟩, trivial⟩
  · change p.tok.tail.length + 1 ≤ p.tok.length
    rw [at_]
    exact Nat.le_refl _
  · exact fun _ ⟨sets, lables, globals⟩ => ⟨sets, lables, globals⟩

theorem skip_any : Settles limit ids (fun _ _ => True) 0 p (liftM (discard pconsume)) := by
  apply lift
  intro _
  refine RunEnds.discard ⟨⟨⟨List.tail_suffix _, ?_, List.prefix_refl _⟩, ?_⟩, trivial⟩
  · exact (List.tail_suffix _).length_le
  · exact fun _ ⟨sets, lables, globals⟩ => ⟨sets, lables, globals⟩

/-- `pconsume(p)->...` -/
theorem pconsume {next : Token → ParseText β}
    (second : ∀ token p', Moved 1 p p' → Settles limit ids gives' (count - 1) p' (next token)) :
    Settles limit ids gives' count p (do
      let token ← pconsume
      let token ← deref token
      next token) := by
  have first : Settles limit ids (fun _ _ => True) 1 p (do
      let token ← Trident.pconsume
      deref token) := by
    intro _
    apply ProcBody.Meets.step
    change ProcBody.Meets _ _ _ _ _ (liftM (deref p.tok.head?) : ParseText Token) (p.reading p.tok.tail)
    generalize same : p.tok = tokens
    cases tokens with
    | nil => exact ⟨.inr rfl, nofun, List.prefix_refl _, nofun, fun _ => rfl⟩
    | cons token rest =>
        refine ⟨⟨⟨?_, (congrArg List.length same).ge, List.prefix_refl _⟩, ?_⟩, trivial⟩
        · rw [same]
          exact List.suffix_cons ..
        · exact fun _ ⟨sets, lables, globals⟩ => ⟨sets, lables, globals⟩
  have whole := bind first fun token p' moved _ => second token p' moved
  exact whole

theorem expectAndConsume (kind : TokenKind) :
    Settles limit ids (fun _ _ => True) 0 p (liftM (expectAndConsume kind)) := by
  intro live
  change RunEnds _ _ (Trident.expectAndConsume kind) p
  rw [← bind_pure (Trident.expectAndConsume kind)]
  apply expectAndConsume_ends
  · exact fun empty => ⟨.inr rfl, .fault fun _ => empty⟩
  · intro token rest _ _
    have reported : Settles limit ids _ 0 p (liftM (Trident.report _)) :=
      report (.expected token.position kind token.kind)
    exact ⟨(reported live).1, trivial⟩
  · intro token rest at_ _
    have suffix : rest <:+ p.tok := at_ ▸ List.suffix_cons ..
    refine ⟨⟨⟨suffix, suffix.length_le, List.prefix_refl _⟩, ?_⟩, trivial⟩
    exact fun _ ⟨sets, lables, globals⟩ => ⟨sets, lables, globals⟩

theorem expected {kind : TokenKind} (at_ : p.tok = token :: rest) (same : token.kind = kind) :
    Settles limit ids (fun _ _ => True) 1 p (liftM (Trident.expectAndConsume kind)) := by
  intro live
  have reading : p = p.reading (token :: rest) := by rw [← at_]; rfl
  have skipped : Settles limit ids (fun _ _ => True) 1 p (liftM (discard Trident.pconsume)) := skip at_
  replace skipped := skipped live
  rw [reading] at skipped ⊢
  change RunEnds _ _ (Trident.expectAndConsume kind) _
  rw [RunEnds, expectAndConsume_run p token rest same]
  exact skipped

theorem initHashSet {next : Nat → ParseText β}
    (second : Settles limit (p.heap.next :: ids) gives' count p.making (next p.heap.next)) :
    Settles limit ids gives' count p (liftM initHashSet >>= next) := by
  intro live
  have grown := Grown.making p
  have sets : ∀ ids, SetsLive ids p → SetsLive (p.heap.next :: ids) p.making := by
    intro ids live
    refine ⟨fun id member => ?_, grown.live _ live.lables, grown.live _ live.globals⟩
    rcases List.mem_cons.mp member with rfl | member
    · exact .init p.heap
    · exact grown.live id (live.sets id member)
  apply (second (sets ids live)).mono
  · exact fun _ _ made => made
  · intro value p' ⟨moved, given⟩
    refine ⟨⟨⟨moved.tok, moved.fewer, moved.stderr⟩, fun ids live => ?_⟩, given⟩
    exact (moved.sets _ (sets ids live)).subset (List.subset_cons_self ..)
  · exact fun _ _ ⟨fuel, stderr, exit, nullToken⟩ => ⟨fuel, stderr, exit, nullToken⟩

end Tokens

section Expressions

theorem expr {prec : Precedence} (below : 8 * p.tok.length + 3 < limit) :
    Settles limit ids (fun _ _ => True) 1 p (Proc.parseExprF prec).call :=
  call (List.nil_subset _) below

theorem parseExprF (prec : Precedence) :
    Settles (8 * p.tok.length + 3) ids (fun _ _ => True) 1 p (Proc.parseExprF prec).text := by
  have below : Proc.parseLeftF.rank p < 8 * p.tok.length + 3 := Nat.lt_succ_self _
  apply bind (call (List.nil_subset _) below)
  intro left p' moved _
  have fewer : p'.tok.length + 1 ≤ p.tok.length := moved.fewer
  have below : (Proc.parseExprLoop prec left).rank p' < 8 * p.tok.length + 3 := by
    change 8 * p'.tok.length + 1 < _
    omega
  exact call (List.nil_subset _) below

theorem parseExprLoop (prec : Precedence) (left : AstNode) :
    Settles (8 * p.tok.length + 1) ids (fun _ _ => True) 0 p (Proc.parseExprLoop prec left).text := by
  apply curr
  · exact fun _ => pure trivial
  · intro token rest at_
    dsimp only
    split
    · exact exit _
    · split
      · exact pure trivial
      · apply bind (skip at_)
        intro _ p' moved _
        have fewer := moved.fewer
        apply bind (expr (by omega))
        intro right p'' moved' _
        have fewer' := moved'.fewer
        apply call (List.nil_subset _)
        change 8 * p''.tok.length + 1 < _
        omega

theorem parseFunctionCallS :
    Settles (8 * p.tok.length + 1) ids (fun _ _ => True) 1 p Proc.parseFunctionCallS.text := by
  apply tokField
  intro token rest at_
  apply bind (skip at_)
  intro _ p' moved _
  have fewer := moved.fewer
  apply bind (expectAndConsume _)
  intro _ p'' moved' _
  have fewer' := moved'.fewer
  have below : Proc.parseCallArgs.rank p'' < 8 * p.tok.length + 1 := by
    change 8 * p''.tok.length + 4 < _
    omega
  apply bind (call (List.nil_subset _) below)
  intro args _ _ _
  exact map (expectAndConsume _)

theorem parseCallArgs :
    Settles (8 * p.tok.length + 4) ids (fun _ _ => True) 0 p Proc.parseCallArgs.text := by
  apply tokField
  intro token rest at_
  split
  · exact pure trivial
  · apply bind (expr (Nat.lt_succ_self _))
    intro expr p' moved _
    have fewer := moved.fewer
    have args : ∀ q : Parser, q.tok.length < p.tok.length →
        Settles (8 * p.tok.length + 4) ids (fun _ _ => True) 0 q (do
          let args ← Proc.parseCallArgs.call
          return expr :: args) := by
      intro q shorter
      have below : Proc.parseCallArgs.rank q < 8 * p.tok.length + 4 := by
        change 8 * q.tok.length + 4 < _
        omega
      exact map (call (List.nil_subset _) below)
    apply isKind
    · exact args p' (by omega)
    · intro token rest at_ _
      apply bind (skip at_)
      intro _ p'' moved' _
      have fewer' := moved'.fewer
      exact args p'' (by omega)

theorem parseUnaryLopS :
    Settles (8 * p.tok.length + 1) ids (fun _ _ => True) 1 p Proc.parseUnaryLopS.text := by
  apply pconsume
  intro op p' moved
  have fewer := moved.fewer
  have below : Proc.parseLeftF.rank p' < 8 * p.tok.length + 1 := by
    change 8 * p'.tok.length + 2 < _
    omega
  apply bind (call (List.nil_subset _) below)
  intro left _ _ _
  exact pure trivial

theorem parseAtomF : Settles limit ids (fun _ _ => True) 1 p ParseText.parseAtomF := by
  apply pconsume
  intro token _ _
  exact pure trivial

theorem parseLeftF :
    Settles (8 * p.tok.length + 2) ids (fun _ _ => True) 1 p Proc.parseLeftF.text := by
  apply current
  intro token rest at_
  apply ppeak
  intro next
  split
  next opened =>
    apply bind (expected at_ opened)
    intro _ p' moved _
    have fewer := moved.fewer
    apply bind (expr (by omega))
    intro node _ _ _
    exact map (expectAndConsume _)
  · split
    · exact call (List.nil_subset _) (Nat.lt_succ_self _)
    · split
      · exact call (List.nil_subset _) (Nat.lt_succ_self _)
      · apply bind parseAtomF
        intro left p' moved _
        have fewer := moved.fewer
        apply tokField
        intro token rest at_'
        split
        · apply bind (skip at_')
          intro _ p'' moved' _
          have fewer' := moved'.fewer
          apply bind (expr (by omega))
          intro indexExpr _ _ _
          exact map (expectAndConsume _)
        · exact pure trivial

end Expressions

section Statements

theorem single {id : Nat} (member : id ∈ ids) : [id] ⊆ ids :=
  List.cons_subset.mpr ⟨member, List.nil_subset _⟩

theorem putToHashSet {id : Nat} {name : CStr} {info : VarInfo} (member : id ∈ ids)
    (below : 8 * p.tok.length < limit) :
    Settles limit ids (fun _ p' => p'.tok = p.tok) 0 p (Proc.putToHashSet id name info).call :=
  call (single member) below

theorem addNode {tail : Option (List AstNode)} {node : Option AstNode}
    (below : 8 * p.tok.length < limit) :
    Settles limit ids ((Proc.addNode tail node).Gives p) 0 p (Proc.addNode tail node).call :=
  call (List.nil_subset _) below

theorem parseAutoSize : Settles limit ids (fun _ _ => True) 0 p ParseText.parseAutoSize := by
  apply isKind
  · exact pure trivial
  · intro _ _ at_ _
    apply bind (skip at_)
    intro _ _ _ _
    apply tokField
    intro _ _ _
    apply bind (expectAndConsume _)
    intro _ _ _ _
    exact map (expectAndConsume _)

theorem parseAutoLoop (symtab : Nat) (bodyTail : Option (List AstNode)) :
    Settles (8 * p.tok.length + 1) [symtab] (fun _ _ => True) 0 p
      (Proc.parseAutoLoop symtab bodyTail).text := by
  apply tokField
  intro token rest at_
  apply bind (expectAndConsume _)
  intro _ p₁ moved₁ _
  apply bind parseAutoSize
  intro size p₂ moved₂ _
  have fewer := (moved₁.trans moved₂).fewer
  apply bind (putToHashSet (List.mem_cons_self ..) (by omega))
  intro _ p₃ moved₃ _
  have fewer₃ := moved₃.fewer
  apply bind (addNode (by omega))
  intro bodyTail p₄ moved₄ _
  have fewer₄ := moved₄.fewer
  apply isKind
  · exact pure trivial
  · intro token rest at_ _
    apply bind (skip at_)
    intro _ p₅ moved₅ _
    have fewer₅ := moved₅.fewer
    apply call (single (List.mem_cons_self ..))
    change 8 * p₅.tok.length + 1 < _
    omega

theorem parseAutoS {symtab : Nat} {bodyTail : Option (List AstNode)} (member : symtab ∈ ids)
    (at_ : p.tok = token :: rest) (auto : token.kind = .auto) (below : 8 * p.tok.length + 1 ≤ limit) :
    Settles limit ids (fun _ _ => True) 1 p (ParseText.parseAutoS symtab bodyTail) := by
  apply bind (expected at_ auto)
  intro _ p' moved _
  have fewer := moved.fewer
  have below : (Proc.parseAutoLoop symtab bodyTail).rank p' < limit := by
    change 8 * p'.tok.length + 1 < _
    omega
  apply bind (call (single member) below)
  intro _ _ _ _
  exact map (expectAndConsume _)

theorem parseExtrnLoop (bodyTail : Option (List AstNode)) :
    Settles (8 * p.tok.length + 1) ids (fun _ _ => True) 0 p (Proc.parseExtrnLoop bodyTail).text := by
  apply tokField
  intro token rest at_
  apply bind (skip at_)
  intro _ p' moved _
  have fewer := moved.fewer
  have finish : ∀ q : Parser, q.tok.length < p.tok.length →
      Settles (8 * p.tok.length + 1) ids (fun _ _ => True) 0 q (do
        let bodyTail ← (Proc.addNode bodyTail (some (.extrn token.lexeme))).call
        if ← Trident.isKind .semicolon then
          return bodyTail
        else
          (Proc.parseExtrnLoop bodyTail).call : ParseText (Option (List AstNode))) := by
    intro q shorter
    apply bind (addNode (by omega))
    intro bodyTail q' moved' _
    have fewer' := moved'.fewer
    apply isKind
    · apply call (List.nil_subset _)
      change 8 * q'.tok.length + 1 < _
      omega
    · exact fun _ _ _ _ => pure trivial
  apply isKind
  · exact finish p' (by omega)
  · intro token rest at_' _
    apply bind (skip at_')
    intro _ q moved' _
    have fewer' := moved'.fewer
    exact finish q (by omega)

theorem parseExtrnS {bodyTail : Option (List AstNode)} (at_ : p.tok = token :: rest)
    (extrn : token.kind = .extrn) (enough : 8 * p.tok.length + 1 ≤ limit) :
    Settles limit ids (fun _ _ => True) 1 p (ParseText.parseExtrnS bodyTail) := by
  apply bind (expected at_ extrn)
  intro _ p' moved _
  have fewer := moved.fewer
  have below : (Proc.parseExtrnLoop bodyTail).rank p' < limit := by
    change 8 * p'.tok.length + 1 < _
    omega
  apply bind (call (List.nil_subset _) below)
  intro _ _ _ _
  exact map (expectAndConsume _)

theorem parseGotoS (at_ : p.tok = token :: rest) (goto : token.kind = .goto) :
    Settles limit ids (fun _ _ => True) 1 p ParseText.parseGotoS := by
  apply bind (expected at_ goto)
  intro _ _ _ _
  apply tokField
  intro _ _ _
  apply bind skip_any
  intro _ _ _ _
  exact map (expectAndConsume _)

theorem parseReturnS (at_ : p.tok = token :: rest) (return_ : token.kind = .return_)
    (enough : 8 * p.tok.length + 3 ≤ limit) :
    Settles limit ids (fun _ _ => True) 1 p ParseText.parseReturnS := by
  apply bind (expected at_ return_)
  intro _ p' moved _
  have fewer := moved.fewer
  apply bind (expr (by omega))
  intro _ _ _ _
  exact map (expectAndConsume _)

theorem parseExprS (enough : 8 * p.tok.length + 3 < limit) :
    Settles limit ids (fun _ _ => True) 1 p ParseText.parseExprS := by
  apply isKind
  · apply bind (expr enough)
    intro _ _ _ _
    exact map (expectAndConsume _)
  · intro _ _ at_ _
    exact map (skip at_)

theorem parseLableS (enough : 8 * p.tok.length < limit) :
    Settles limit ids (fun _ _ => True) 1 p ParseText.parseLableS := by
  apply tokField
  intro token rest at_
  apply get
  apply lables
  apply bind (putToHashSet (List.mem_cons_self ..) enough)
  intro _ p' moved same
  apply bind (skip (same.trans at_))
  intro _ _ _ _
  exact map skip_any

theorem kind?_of_head (at_ : p.tok = token :: rest) : p.kind? = some token.kind := by
  rw [Parser.kind?, at_]
  rfl

/-- A scope whose brace is there. -/
theorem parseScopeF_braced {parent : List Nat} {symtab : Nat} (member : symtab ∈ ids)
    (at_ : p.tok = token :: rest) (braced : token.kind = .oBrace)
    (below : 8 * p.tok.length + 1 < limit) :
    Settles limit ids (fun node _ => node.scopeN?.isSome) 1 p (Proc.parseScopeF parent symtab).call := by
  have opened : p.kind? = some .oBrace := braced ▸ kind?_of_head at_
  have reads : (Proc.parseScopeF parent symtab).reads p = 1 := if_pos opened
  have rank : (Proc.parseScopeF parent symtab).rank p < limit := by
    change 8 * p.tok.length + (if p.kind? = some .oBrace then 1 else 6) < limit
    rw [if_pos opened]
    exact below
  rw [← reads]
  exact call (single member) rank

/-- A scope whose brace may be missing. -/
theorem parseScopeF_any {parent : List Nat} {symtab : Nat} (member : symtab ∈ ids)
    (below : 8 * p.tok.length + 6 < limit) :
    Settles limit ids (fun node _ => node.scopeN?.isSome) 0 p (Proc.parseScopeF parent symtab).call := by
  have rank : (Proc.parseScopeF parent symtab).rank p < limit := by
    change 8 * p.tok.length + (if p.kind? = some .oBrace then 1 else 6) < limit
    split <;> omega
  exact weaken (call (single member) rank) (Nat.zero_le _)

theorem parseIfS_call {kind : AstKind} {parent : List Nat} (at_ : p.tok = token :: rest)
    (if_ : token.kind = .if_) (below : 8 * p.tok.length + 1 < limit) :
    Settles limit ids (fun _ _ => True) 1 p (Proc.parseIfS kind parent).call := by
  have opened : p.kind? = some .if_ := if_ ▸ kind?_of_head at_
  have rank : (Proc.parseIfS kind parent).rank p < limit := by
    change 8 * p.tok.length + (if p.kind? = some .if_ then 1 else 4) < limit
    rw [if_pos opened]
    exact below
  exact call (List.nil_subset _) rank

theorem parseWhileS_call {parent : List Nat} (at_ : p.tok = token :: rest)
    (while_ : token.kind = .while_) (below : 8 * p.tok.length + 1 < limit) :
    Settles limit ids (fun _ _ => True) 1 p (Proc.parseWhileS parent).call := by
  have opened : p.kind? = some .while_ := while_ ▸ kind?_of_head at_
  have rank : (Proc.parseWhileS parent).rank p < limit := by
    change 8 * p.tok.length + (if p.kind? = some .while_ then 1 else 4) < limit
    rw [if_pos opened]
    exact below
  exact call (List.nil_subset _) rank

theorem parseStatementsF (parent : List Nat) (symtab : Nat) (bodyTail : Option (List AstNode)) :
    Settles (8 * p.tok.length + 4) [symtab] (fun _ _ => True) 1 p
      (Proc.parseStatementsF parent symtab bodyTail).text := by
  apply tokField
  intro token rest at_
  apply ppeak
  intro next
  split
  next auto => exact map (parseAutoS (List.mem_cons_self ..) at_ auto (by omega))
  next extrn => exact map (parseExtrnS at_ extrn (by omega))
  next goto => exact map (parseGotoS at_ goto)
  next braced =>
    apply initHashSet
    exact map (parseScopeF_braced (List.mem_cons_self ..) at_ braced (show 8 * p.tok.length + 1 < _ by omega))
  next return_ => exact map (parseReturnS at_ return_ (by omega))
  next if_ => exact map (parseIfS_call at_ if_ (by omega))
  next while_ => exact map (parseWhileS_call at_ while_ (by omega))
  next =>
    split
    · exact map (parseLableS (by omega))
    · exact map (parseExprS (by omega))
  next => exact map (parseExprS (by omega))

/-- The body of a scope after its brace. -/
theorem scopeRest {scopeN : AstScope} (member : scopeN.symtab ∈ ids)
    (below : 8 * p.tok.length + 5 < limit) :
    Settles limit ids (fun (node : AstNode) _ => node.scopeN?.isSome) 0 p (do
      let body ← (Proc.parseScopeBody scopeN []).call
      Trident.expectAndConsume .cBrace
      return .scope scopeN body) := by
  have below : (Proc.parseScopeBody scopeN []).rank p < limit := below
  apply bind (call (single member) below)
  intro body _ _ _
  apply bind (expectAndConsume _)
  intro _ _ _ _
  exact pure rfl

theorem parseScopeF (parent : List Nat) (symtab : Nat) :
    Settles ((Proc.parseScopeF parent symtab).rank p) [symtab] (fun node _ => node.scopeN?.isSome)
      ((Proc.parseScopeF parent symtab).reads p) p (Proc.parseScopeF parent symtab).text := by
  change Settles (8 * p.tok.length + (if p.kind? = some .oBrace then 1 else 6)) _ _
    (if p.kind? = some .oBrace then 1 else 0) p _
  split
  next opened =>
    obtain ⟨token, at_, braced⟩ := Option.map_eq_some_iff.mp opened
    obtain ⟨rest, at_⟩ := List.head?_eq_some_iff.mp at_
    apply bind (expected at_ braced)
    intro _ p' moved _
    have fewer := moved.fewer
    exact scopeRest (List.mem_cons_self ..) (by omega)
  next =>
    apply bind (expectAndConsume _)
    intro _ p' moved _
    have fewer := moved.fewer
    exact scopeRest (List.mem_cons_self ..) (by omega)

theorem parseScopeBody (scopeN : AstScope) (body : List AstNode) :
    Settles (8 * p.tok.length + 5) [scopeN.symtab] (fun _ _ => True) 0 p
      (Proc.parseScopeBody scopeN body).text := by
  apply curr
  · exact fun _ => pure trivial
  · intro token rest at_
    dsimp only
    split
    · exact pure trivial
    · have below : (Proc.parseStatementsF scopeN.chain scopeN.symtab (some body)).rank p <
          8 * p.tok.length + 5 := Nat.lt_succ_self _
      apply bind (call (single (List.mem_cons_self ..)) below)
      intro ⟨statement, tail⟩ p' moved _
      have fewer : p'.tok.length + 1 ≤ p.tok.length := moved.fewer
      have again : ∀ (q : Parser) (body : List AstNode), q.tok.length < p.tok.length →
          Settles (8 * p.tok.length + 5) [scopeN.symtab] (fun _ _ => True) 0 q
            (Proc.parseScopeBody scopeN body).call := by
        intro q body shorter
        apply call (single (List.mem_cons_self ..))
        change 8 * q.tok.length + 5 < _
        omega
      split
      · apply bind (addNode (by omega))
        intro nodes p'' moved' _
        have fewer' := moved'.fewer
        exact again p'' _ (by omega)
      · exact again p' _ (by omega)

/-- A keyword that may be missing leaves enough for the condition. -/
theorem keyword {kind : TokenKind} {next : PUnit → ParseText β}
    (second : ∀ p', Moved 0 p p' →
      8 * p'.tok.length + 3 < 8 * p.tok.length + (if p.kind? = some kind then 1 else 4) →
      Settles limit ids gives' count p' (next ⟨⟩)) :
    Settles limit ids gives' count p (liftM (Trident.expectAndConsume kind) >>= next) := by
  by_cases opened : p.kind? = some kind
  · obtain ⟨token, at_, same⟩ := Option.map_eq_some_iff.mp opened
    obtain ⟨rest, at_⟩ := List.head?_eq_some_iff.mp at_
    rw [← Nat.sub_zero count] at second
    have read : ∀ value p', Moved 1 p p' → True → Settles limit ids gives' (count - 1) p' (next value) := by
      intro _ p' moved _
      apply weaken (second p' (moved.mono (Nat.zero_le _)) _) (Nat.sub_le_sub_left (Nat.zero_le _) _)
      have fewer := moved.fewer
      rw [if_pos opened]
      omega
    exact bind (expected at_ same) read
  · apply bind (expectAndConsume kind)
    intro _ p' moved _
    apply second p' moved
    have fewer := moved.fewer
    rw [if_neg opened]
    omega

theorem parseIfS (kind : AstKind) (parent : List Nat) :
    Settles ((Proc.parseIfS kind parent).rank p) ids (fun _ _ => True) 1 p
      (Proc.parseIfS kind parent).text := by
  apply keyword
  intro p₁ moved₁ below
  apply bind (expectAndConsume _)
  intro _ p₂ moved₂ _
  have fewer₂ := moved₂.fewer
  change 8 * p₁.tok.length + 3 < (Proc.parseIfS kind parent).rank p at below
  apply bind (expr (by omega))
  intro condition p₃ moved₃ _
  have fewer₃ := moved₃.fewer
  apply bind (expectAndConsume _)
  intro _ p₄ moved₄ _
  have fewer₄ := moved₄.fewer
  apply initHashSet
  have same : p₄.making.tok.length = p₄.tok.length := rfl
  apply bind (parseScopeF_any (List.mem_cons_self ..) (by omega))
  intro body p₅ moved₅ _
  have fewer₅ := moved₅.fewer
  have below : (Proc.parseIfChain parent).rank p₅ < (Proc.parseIfS kind parent).rank p := by
    change 8 * p₅.tok.length + 1 < _
    omega
  exact map (call (List.nil_subset _) below)

theorem parseIfChain (parent : List Nat) :
    Settles (8 * p.tok.length + 1) ids (fun _ _ => True) 0 p (Proc.parseIfChain parent).text := by
  apply isKind
  · exact pure trivial
  · intro token rest at_ _
    apply bind (skip at_)
    intro _ p' moved _
    have fewer := moved.fewer
    apply isKind
    · apply initHashSet
      have same : p'.making.tok.length = p'.tok.length := rfl
      apply bind (parseScopeF_any (List.mem_cons_self ..) (by omega))
      intro body _ _ scope
      obtain ⟨parts, found⟩ := Option.isSome_iff_exists.mp scope
      rw [found]
      exact pure trivial
    · intro token rest at_' if_
      have below : 8 * p'.tok.length + 1 < 8 * p.tok.length + 1 := by omega
      exact map (weaken (parseIfS_call at_' if_ below) (Nat.zero_le _))

theorem parseWhileS (parent : List Nat) :
    Settles ((Proc.parseWhileS parent).rank p) ids (fun _ _ => True) 1 p
      (Proc.parseWhileS parent).text := by
  apply initHashSet
  apply keyword
  intro p₁ moved₁ below
  apply bind (expectAndConsume _)
  intro _ p₂ moved₂ _
  have fewer₂ := moved₂.fewer
  change 8 * p₁.tok.length + 3 < (Proc.parseWhileS parent).rank p at below
  apply bind (expr (by omega))
  intro condition p₃ moved₃ _
  have fewer₃ := moved₃.fewer
  apply bind (expectAndConsume _)
  intro _ p₄ moved₄ _
  have fewer₄ := moved₄.fewer
  exact map (parseScopeF_any (List.mem_cons_self ..) (by omega))

theorem parseGlobalSize : Settles limit ids (fun _ _ => True) 0 p ParseText.parseGlobalSize := by
  apply isKind
  · exact pure trivial
  · intro _ _ at_ _
    apply bind (skip at_)
    intro _ _ _ _
    apply tokField
    intro _ _ _
    apply bind skip_any
    intro _ _ _ _
    exact map (expectAndConsume _)

/-- The list of nodes is no set. -/
theorem modify_ast (change : List AstNode → List AstNode) :
    Settles limit ids (fun _ _ => True) 0 p
      (liftM (modify fun p => { p with ast := change p.ast } : ParseM Unit)) := by
  intro _
  refine ⟨⟨⟨List.suffix_refl _, Nat.le_refl _, List.prefix_refl _⟩, ?_⟩, trivial⟩
  exact fun _ ⟨sets, lables, globals⟩ => ⟨sets, lables, globals⟩

/-- A set that is there becomes the label table. -/
theorem modify_lables {id : Nat} (member : id ∈ ids) :
    Settles limit ids (fun _ _ => True) 0 p
      (liftM (modify fun p => { p with tLableTab := id } : ParseM Unit)) := by
  intro live
  refine ⟨⟨⟨List.suffix_refl _, Nat.le_refl _, List.prefix_refl _⟩, ?_⟩, trivial⟩
  exact fun _ ⟨sets, _, globals⟩ => ⟨sets, live.sets id member, globals⟩

theorem parseGlobalLoop (name : CStr) :
    Settles (8 * p.tok.length + 1) ids (fun _ _ => True) 0 p (Proc.parseGlobalLoop name).text := by
  apply bind parseGlobalSize
  intro size p₁ moved₁ _
  have fewer₁ := moved₁.fewer
  apply get
  apply globals
  apply bind (putToHashSet (List.mem_cons_self ..) (by omega))
  intro _ p₂ moved₂ _
  have fewer₂ := moved₂.fewer
  apply bind (modify_ast fun ast => ast ++ [AstNode.global name size])
  intro _ p₃ moved₃ _
  have fewer₃ := moved₃.fewer
  apply isKind
  · exact pure trivial
  · intro _ _ at_ _
    apply bind (skip at_)
    intro _ p₄ moved₄ _
    have fewer₄ := moved₄.fewer
    apply tokField
    intro token _ _
    apply bind skip_any
    intro _ p₅ moved₅ _
    have fewer₅ := moved₅.fewer
    apply call (List.nil_subset _)
    change 8 * p₅.tok.length + 1 < _
    omega

theorem parseGlobalS {name : CStr} (below : 8 * p.tok.length + 1 < limit) :
    Settles limit ids (fun _ _ => True) 0 p (ParseText.parseGlobalS name) := by
  have below : (Proc.parseGlobalLoop name).rank p < limit := below
  apply bind (call (List.nil_subset _) below)
  intro _ _ _ _
  exact expectAndConsume _

theorem parseParams (symtable params : Nat) :
    Settles (8 * p.tok.length + 1) [symtable] (fun _ _ => True) 0 p
      (Proc.parseParams symtable params).text := by
  apply tokField
  intro token rest at_
  split
  · exact pure trivial
  · apply tokField
    intro name rest at_'
    apply bind (skip at_')
    intro _ p₁ moved₁ _
    have fewer₁ := moved₁.fewer
    apply bind (putToHashSet (List.mem_cons_self ..) (by omega))
    intro _ p₂ moved₂ _
    have fewer₂ := moved₂.fewer
    have again : ∀ q : Parser, q.tok.length < p.tok.length →
        Settles (8 * p.tok.length + 1) [symtable] (fun _ _ => True) 0 q
          (Proc.parseParams symtable (params + 1)).call := by
      intro q shorter
      apply call (single (List.mem_cons_self ..))
      change 8 * q.tok.length + 1 < _
      omega
    apply isKind
    · exact again p₂ (by omega)
    · intro _ _ at_ _
      apply bind (skip at_)
      intro _ p₃ moved₃ _
      have fewer₃ := moved₃.fewer
      exact again p₃ (by omega)

theorem parseFunctionS {name : CStr} (below : 8 * p.tok.length + 4 < limit) :
    Settles limit ids (fun _ _ => True) 0 p (ParseText.parseFunctionS name) := by
  apply initHashSet
  apply initHashSet
  have same : p.making.making.tok.length = p.tok.length := rfl
  apply bind (modify_lables (List.mem_cons_self ..))
  intro _ p₁ moved₁ _
  have fewer₁ := moved₁.fewer
  apply bind (expectAndConsume _)
  intro _ p₂ moved₂ _
  have fewer₂ := moved₂.fewer
  have params : (Proc.parseParams p.heap.next 0).rank p₂ < limit := by
    change 8 * p₂.tok.length + 1 < limit
    omega
  apply bind (call (single (by simp)) params)
  intro params p₃ moved₃ _
  have fewer₃ : p₃.tok.length + 0 ≤ p₂.tok.length := moved₃.fewer
  apply bind (expectAndConsume _)
  intro _ p₄ moved₄ _
  have fewer₄ := moved₄.fewer
  apply get
  have body : (Proc.parseStatementsF (AstScope.chain ⟨p.heap.next, p₄.globalScopeN⟩) p.heap.next
      none).rank p₄ < limit := by
    change 8 * p₄.tok.length + 4 < limit
    omega
  apply bind (weaken (call (single (by simp)) body) (Nat.zero_le _))
  intro ⟨statement, _⟩ p₅ moved₅ _
  have fewer₅ := moved₅.fewer
  apply bind (addNode (by omega))
  intro nodes p₆ _ ⟨before, last, empty, _, made⟩
  cases empty
  subst made
  exact pure trivial

theorem parserLoop : Settles (8 * p.tok.length + 1) ids (fun _ _ => True) 0 p Proc.parserLoop.text := by
  have again : ∀ q : Parser, q.tok.length < p.tok.length →
      Settles (8 * p.tok.length + 1) ids (fun _ _ => True) 0 q Proc.parserLoop.call := by
    intro q shorter
    apply call (List.nil_subset _)
    change 8 * q.tok.length + 1 < _
    omega
  apply curr
  · exact fun _ => pure trivial
  · intro token rest at_
    dsimp only
    split
    · apply bind (skip at_)
      intro _ p₁ moved₁ _
      have fewer₁ := moved₁.fewer
      apply tokField
      intro next rest at_'
      split
      · apply bind (parseFunctionS (by omega))
        intro function p₂ moved₂ _
        have fewer₂ := moved₂.fewer
        apply bind (modify_ast fun ast => ast ++ [function])
        intro _ p₃ moved₃ _
        have fewer₃ := moved₃.fewer
        exact again p₃ (by omega)
      · apply bind (parseGlobalS (by omega))
        intro _ p₂ moved₂ _
        have fewer₂ := moved₂.fewer
        exact again p₂ (by omega)
    · split
      next extrn =>
        apply get
        apply bind (parseExtrnS at_ extrn (by omega))
        intro ast p₁ moved₁ _
        have fewer₁ := moved₁.fewer
        apply bind (modify_ast fun _ => ast.getD [])
        intro _ p₂ moved₂ _
        have fewer₂ := moved₂.fewer
        exact again p₂ (by omega)
      · apply bind (report _)
        intro _ p₁ moved₁ same
        apply bind (skip (same.trans at_))
        intro _ p₂ moved₂ _
        have fewer₁ := moved₁.fewer
        have fewer₂ := moved₂.fewer
        exact again p₂ (by omega)

end Statements

end Settles

/-! The two functions that write raise an error for a null pointer that they are given. -/

private theorem putToHashSet_meets {id : Nat} {name : CStr} {info : VarInfo} {p : Parser}
    (live : SetsLive [id] p) {calls : Proc → Parser → Prop} :
    (Proc.putToHashSet id name info).text.Meets parserContract calls
      (fun stop => stop = .fault .nullName ∧ name = none)
      (fun _ p' => Moved 0 p p' ∧ p'.tok = p.tok) (Halted p) p := by
  change RunEnds _ _ (putToHashSet id name info) p
  obtain ⟨table, stored⟩ := Option.isSome_iff_exists.mp (live.sets id (List.mem_cons_self ..))
  rw [RunEnds, putToHashSet, bind_run_of_ok (get_run p), stored]
  cases name with
  | none => exact ⟨⟨rfl, rfl⟩, .fault fun same => by cases same⟩
  | some name =>
      refine ⟨⟨⟨List.suffix_refl _, Nat.le_refl _, List.prefix_refl _⟩, ?_⟩, rfl⟩
      intro ids live'
      obtain ⟨sets, lables, globals⟩ := live'
      exact ⟨fun id member => (sets id member).write, lables.write, globals.write⟩

private theorem addNode_meets {tail : Option (List AstNode)} {node : Option AstNode} {p : Parser}
    {calls : Proc → Parser → Prop} :
    (Proc.addNode tail node).text.Meets parserContract calls
      (fun stop => stop = .fault .nullNode ∧ (tail = none ∨ node = none))
      (fun nodes p' => Moved 0 p p' ∧ (Proc.addNode tail node).Gives p nodes p') (Halted p) p := by
  change RunEnds _ _ (addNode tail node) p
  cases node with
  | none => exact ⟨⟨rfl, .inr rfl⟩, .fault nofun⟩
  | some node =>
      cases tail with
      | none => exact ⟨⟨rfl, .inl rfl⟩, .fault nofun⟩
      | some nodes => exact ⟨.refl p, nodes, node, rfl, rfl, rfl⟩

theorem parser_keep : parserProcedures.Keep parserContract where
  falls made := made.2
  meets := by
    intro proc p live
    cases proc with
    | parseExprF prec => exact Settles.parseExprF prec live
    | parseExprLoop prec left => exact Settles.parseExprLoop prec left live
    | parseFunctionCallS => exact Settles.parseFunctionCallS live
    | parseCallArgs => exact Settles.parseCallArgs live
    | parseUnaryLopS => exact Settles.parseUnaryLopS live
    | parseLeftF => exact Settles.parseLeftF live
    | parseAutoLoop symtab bodyTail => exact Settles.parseAutoLoop symtab bodyTail live
    | parseExtrnLoop bodyTail => exact Settles.parseExtrnLoop bodyTail live
    | parseStatementsF parent symtab bodyTail =>
        exact Settles.parseStatementsF parent symtab bodyTail live
    | parseScopeF parent symtab => exact Settles.parseScopeF parent symtab live
    | parseScopeBody scopeN body => exact Settles.parseScopeBody scopeN body live
    | parseIfS kind parent => exact Settles.parseIfS kind parent live
    | parseIfChain parent => exact Settles.parseIfChain parent live
    | parseWhileS parent => exact Settles.parseWhileS parent live
    | parseGlobalLoop name => exact Settles.parseGlobalLoop name live
    | parseParams symtable params => exact Settles.parseParams symtable params live
    | parserLoop => exact Settles.parserLoop live
    | putToHashSet id name info => exact putToHashSet_meets live
    | addNode tail node => exact addNode_meets

/-- The call of the parser's loop, with a depth that is enough. -/
def parserCall (tokens : List Token) : ProcCall Proc Parser :=
  ⟨parserFuel tokens.length, .parserLoop, initParser tokens⟩

theorem parserCall_admitted (tokens : List Token) :
    ProcCall.Admitted parserContract (parserCall tokens) where
  pre := ⟨nofun, rfl, rfl⟩
  rank := by
    change 8 * tokens.length + 1 < 8 * tokens.length + 8
    omega

/-- The parser ends, in a state that is reached from the first one. -/
theorem parser_finishes (tokens : List Token) : Finishes 0 (initParser tokens) parser := by
  have admitted := parserCall_admitted tokens
  have ends : Finishes 0 (initParser tokens) (parserLoop (parserFuel tokens.length)) := by
    apply RunEnds.mono (parser_keep.run_ends admitted.pre admitted.rank)
    · exact fun _ _ given => given.1.toAdvanced
    · exact fun _ _ halted => halted
  unfold Finishes RunEnds at ends ⊢
  unfold parser
  exact ends

end Trident
