import Trident.Parser.Progress

/-! The parser terminates: between two turns of a loop, and between two calls of one
function of which the second is below the first, a token is read. The run ends by
returning, by a diagnosed exit or behind the last token, unless a table or a list of nodes
is written with a null pointer. -/

set_option autoImplicit false

namespace Trident

open Foundation

/-- The run over the tokens makes the call. -/
def Reached (tokens : List Token) (call : ProcCall Proc Parser) : Prop :=
  Relation.ReflTransGen parserProcedures.Calls (parserCall tokens) call

/-- A routine is entered again below itself only after a token was read. The next turn of
a loop counts as entered below the one before. -/
def CyclesRead (tokens : List Token) : Prop :=
  ∀ call later, Reached tokens call → Relation.TransGen parserProcedures.Calls call later →
    later.proc.routine = call.proc.routine →
    later.state.tok.length < call.state.tok.length

/-- The run returns, exits after a diagnostic, or reads a field of the null pointer behind
the last token. -/
def ParserEnds (tokens : List Token) : Prop :=
  match parser (initParser tokens) with
  | .ok _ _ => True
  | .error .exit p => p.stderr ≠ []
  | .error (.fault .nullToken) p => p.tok = []
  | .error _ _ => False

/-- `put_to_hash_set` is given a name, and `add_node` the end of a list and a node. -/
def Proc.Given : Proc → Prop
  | .putToHashSet _ name _ => name ≠ none
  | .addNode tail node => tail ≠ none ∧ node ≠ none
  | _ => True

/-- A call below reads no tokens back, and its rank is smaller. -/
private theorem reached_calls {tokens : List Token} {call later : ProcCall Proc Parser}
    (reached : Reached tokens call) (path : Relation.TransGen parserProcedures.Calls call later) :
    later.state.tok <:+ call.state.tok ∧ later.proc.rank later.state < call.proc.rank call.state := by
  have admitted := parser_keep.reached (parserCall_admitted tokens) reached
  apply parser_keep.chain _ admitted path
  intro _ _ _ _ _ _ ⟨suffix, falls⟩ ⟨suffix', falls'⟩
  exact ⟨suffix'.trans suffix, falls'.trans falls⟩

private theorem cyclesRead (tokens : List Token) : CyclesRead tokens := by
  intro call later reached path same
  obtain ⟨suffix, falls⟩ := reached_calls reached path
  rcases Nat.lt_or_eq_of_le suffix.length_le with fewer | equal
  · exact fewer
  · have tok := suffix.eq_of_length equal
    -- with the same tokens left, the ranks of one routine are equal
    rw [Proc.rank, Proc.rank, Parser.kind?, Parser.kind?, same, tok] at falls
    exact absurd falls (Nat.lt_irrefl _)

/-- A null pointer that is written stops the call. -/
theorem Proc.not_given_fails {proc : Proc} {p : Parser} (depth : Nat) (given : ¬ proc.Given)
    (live : SetsLive proc.sets p) :
    ∃ fault, (fault = .nullName ∨ fault = .nullNode) ∧
      proc.exec depth p = .error (.fault fault) p := by
  cases proc with
  | putToHashSet id name info =>
      have null : name = none := not_not.mp given
      subst null
      exact ⟨.nullName, .inl rfl, rfl⟩
  | addNode tail node =>
      refine ⟨.nullNode, .inr rfl, ?_⟩
      change Trident.addNode tail node p = _
      cases node with
      | none => rfl
      | some node =>
          cases tail with
          | none => rfl
          | some nodes => exact absurd ⟨nofun, nofun⟩ given
  | _ => exact absurd trivial given

private theorem parser_exec (tokens : List Token) :
    parser (initParser tokens) =
      parserProcedures.exec (parserCall tokens).depth (parserCall tokens).proc
        (parserCall tokens).state := rfl

private theorem given_of_parserEnds {tokens : List Token} (ends : ParserEnds tokens)
    (call : ProcCall Proc Parser) (reached : Reached tokens call) : call.proc.Given := by
  by_contra null
  have admitted := parser_keep.reached (parserCall_admitted tokens) reached
  obtain ⟨fault, kind, failed⟩ := Proc.not_given_fails call.depth null admitted.pre
  have stopped := (parser_exec tokens).trans (Procedures.failed_of_reached reached failed)
  rw [ParserEnds, stopped] at ends
  rcases kind with rfl | rfl <;> exact ends

/-- A run that does not return exits, reads the null pointer behind the last token, or is in a
call that is given a null pointer to write. -/
theorem parser_stops {tokens : List Token} {stop : Stop} {p : Parser}
    (stopped : parser (initParser tokens) = .error stop p) :
    stop = .exit ∨ stop = .fault .nullToken ∨
      (stop = .fault .nullName ∨ stop = .fault .nullNode) ∧
        ∃ call, Reached tokens call ∧ ¬ call.proc.Given := by
  obtain ⟨culprit, reached, raised⟩ :=
    parser_keep.source (parserCall_admitted tokens) ((parser_exec tokens).symm.trans stopped)
  have given : ∀ {proc}, culprit.proc = proc → ¬ proc.Given → ∃ call, Reached tokens call ∧ ¬ call.proc.Given :=
    fun same null => ⟨culprit, reached, same ▸ null⟩
  cases proc : culprit.proc with
  | putToHashSet id name info =>
      rw [proc] at raised
      exact .inr (.inr ⟨.inl raised.1, given proc (not_not.mpr raised.2)⟩)
  | addNode tail node =>
      rw [proc] at raised
      refine .inr (.inr ⟨.inr raised.1, given proc fun pointers => ?_⟩)
      exact raised.2.elim pointers.1 pointers.2
  | _ =>
      rw [proc] at raised
      have early : stop = .exit ∨ stop = .fault .nullToken := raised
      exact early.imp_right .inl

/-- An exit is diagnosed. -/
theorem parser_exits {tokens : List Token} {p : Parser}
    (stopped : parser (initParser tokens) = .error .exit p) : p.stderr ≠ [] := by
  intro silent
  have reported := ((parser_finishes tokens).of_error stopped).exit rfl
  rw [silent] at reported
  cases reported

private theorem parserEnds_of_given {tokens : List Token}
    (given : ∀ call, Reached tokens call → call.proc.Given) : ParserEnds tokens := by
  unfold ParserEnds
  cases stopped : parser (initParser tokens) with
  | ok _ _ => trivial
  | error stop p =>
      rcases parser_stops stopped with rfl | rfl | ⟨-, call, reached, null⟩
      · exact parser_exits stopped
      · exact ((parser_finishes tokens).of_error stopped).nullToken rfl
      · exact absurd (given call reached) null

/-- The parser reads a token in every cycle and ends as it should exactly if it is given no
null pointer to write. -/
theorem parser_terminates_iff (tokens : List Token) :
    (CyclesRead tokens ∧ ParserEnds tokens) ↔
      ∀ call, Reached tokens call → call.proc.Given := by
  constructor
  · exact fun ⟨_, ends⟩ => given_of_parserEnds ends
  · exact fun given => ⟨cyclesRead tokens, parserEnds_of_given given⟩

/-- The tokens of `f() auto x;`. -/
def autoBody : List Token :=
  [⟨.identifier, some [102], 0, ⟨1, 1⟩⟩, ⟨.oPren, none, 0, ⟨1, 2⟩⟩, ⟨.cPren, none, 0, ⟨1, 3⟩⟩,
    ⟨.auto, none, 0, ⟨1, 5⟩⟩, ⟨.identifier, some [120], 0, ⟨1, 10⟩⟩, ⟨.semicolon, none, 0, ⟨1, 11⟩⟩]

/-- A declaration outside of a scope has no list to be appended to. -/
theorem parser_terminates_autoBody : ¬ (CyclesRead autoBody ∧ ParserEnds autoBody) := by
  intro ⟨_, ends⟩
  exact ends

end Trident
