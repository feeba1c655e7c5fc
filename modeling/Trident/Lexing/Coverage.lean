import Trident.Lexing.Pieces

/-! A run of the lexer ends, and the pieces it reads are the whole buffer. -/

set_option autoImplicit false

namespace Trident

open Foundation

/-- The pieces of a text, when `strings` literals came before it. -/
inductive CutUp : Nat → List Piece → List UInt8 → Prop where
  | nil {strings} : CutUp strings [] []
  | cons {strings piece pieces more} : piece.Valid strings more →
      CutUp (strings + piece.strings) pieces more → CutUp strings (piece :: pieces) (piece.text ++ more)

/-- The pieces that the lexer takes from a text. -/
inductive Takes : Nat → List Piece → List UInt8 → Prop where
  | nil {strings} : Takes strings [] []
  | cons {strings piece pieces more} : piece.Taken strings more →
      Takes (strings + piece.strings) pieces more →
      Takes strings (piece :: pieces) (piece.text ++ more)

theorem Takes.cut {strings : Nat} {pieces : List Piece} {text : List UInt8}
    (takes : Takes strings pieces text) : CutUp strings pieces text := by
  induction takes with
  | nil => exact .nil
  | cons taken _ ih => exact .cons taken.valid ih

/-- The tokens are at the positions that the counters give. -/
inductive Counted : Position → List Piece → Prop where
  | nil {position} : Counted position []
  | cons {position piece pieces} : (∀ token ∈ piece.token, token.position = position) →
      Counted (piece.counted position) pieces → Counted position (piece :: pieces)

/-- The tokens among the pieces. -/
def tokensOf (pieces : List Piece) : List Token := pieces.filterMap (·.token)

namespace CutUp

variable {strings : Nat} {pieces : List Piece} {text : List UInt8}

theorem flatten (cut : CutUp strings pieces text) : (pieces.map (·.text)).flatten = text := by
  induction cut with
  | nil => rfl
  | cons _ _ ih => rw [List.map_cons, List.flatten_cons, ih]

theorem nonempty (cut : CutUp strings pieces text) : ∀ piece ∈ pieces, piece.text ≠ [] := by
  induction cut with
  | nil => exact List.forall_mem_nil _
  | cons valid _ ih => exact List.forall_mem_cons.mpr ⟨valid.nonempty, ih⟩

end CutUp

theorem tokensOf_cons (piece : Piece) (pieces : List Piece) :
    tokensOf (piece :: pieces) = piece.token.toList ++ tokensOf pieces := by
  rw [tokensOf, List.filterMap_cons]
  cases piece.token <;> rfl

/-- The loop of `lexer` has read a text up to the end. -/
structure ReadsAll (l l' : Lexer) (pieces : List Piece) (text : List UInt8) : Prop where
  takes : Takes l.srtDataC pieces text
  counted : Counted l.position pieces
  buffer : l'.buffer = l.buffer
  i : l'.i = l.buffer.length
  tokens : l'.tokens = l.tokens ++ tokensOf pieces

section

variable {l l' final : Lexer} {piece : Piece} {pieces : List Piece} {text more : List UInt8}
variable {fuel rounds : Nat}

theorem ReadsPiece.at_more (reads : ReadsPiece l l' piece more) : l'.At more :=
  reads.before.move reads.buffer reads.i

theorem ReadsAll.nil (at_ : l.At []) : ReadsAll l l [] [] where
  takes := .nil
  counted := .nil
  buffer := rfl
  i := Nat.le_antisymm at_.within (List.drop_eq_nil_iff.mp at_.rest)
  tokens := (List.append_nil _).symm

theorem ReadsAll.cons (first : ReadsPiece l l' piece more) (later : ReadsAll l' final pieces more) :
    ReadsAll l final (piece :: pieces) (piece.text ++ more) where
  takes := .cons first.taken (first.strings ▸ later.takes)
  counted := .cons first.located (first.counted ▸ later.counted)
  buffer := later.buffer.trans first.buffer
  i := by rw [later.i, first.buffer]
  tokens := by rw [later.tokens, first.tokens, tokensOf_cons, List.append_assoc]

theorem lexerLoop_end (at_ : l.At []) : lexerLoop fuel (rounds + 1) l = .ok () l := by
  have ended : ¬ l.i < l.bufLen := Nat.not_lt.mpr (List.drop_eq_nil_iff.mp at_.rest)
  rw [lexerLoop, bind_run_of_ok (get_run _), bind_run_of_ok (get_run _), if_neg ended]
  rfl

theorem lexerLoop_step (at_ : l.At text) (nonempty : text ≠ []) :
    lexerLoop fuel (rounds + 1) l = (lexToken fuel >>= fun _ => lexerLoop fuel rounds) l := by
  have inside : l.i < l.bufLen := by
    by_contra ended
    exact nonempty (at_.rest.symm.trans (List.drop_eq_nil_of_le (Nat.le_of_not_lt ended)))
  rw [lexerLoop, bind_run_of_ok (get_run _), bind_run_of_ok (get_run _), if_pos inside]

private theorem lexerLoop_outcome (at_ : l.At text) (rounds_enough : text.length < rounds)
    (enough : text.length < fuel) :
    (∃ final pieces, lexerLoop fuel rounds l = .ok () final ∧ ReadsAll l final pieces text) ∨
      ∃ final, lexerLoop fuel rounds l = .error .exit final ∧ final.Stopped := by
  induction rounds generalizing l text with
  | zero => cases rounds_enough
  | succ rounds ih =>
      by_cases ended : text = []
      · subst ended
        exact .inl ⟨l, [], lexerLoop_end at_, .nil at_⟩
      rw [lexerLoop_step at_ ended]
      rcases lexToken_outcome at_ ended enough with ⟨piece, more, l', run, reads⟩ | ⟨l', run, stopped⟩
      · have same : text = piece.text ++ more := at_.rest.symm.trans reads.before.rest
        have fewer : more.length < text.length := by
          have nonempty := List.length_pos_iff.mpr reads.valid.nonempty
          rw [same, List.length_append]
          omega
        rw [bind_run_of_ok run]
        rcases ih reads.at_more (by omega) (by omega) with ⟨final, pieces, later, all⟩ | stopped
        · exact .inl ⟨final, piece :: pieces, later, same ▸ .cons reads all⟩
        · exact .inr stopped
      · rw [bind_run_of_error run]
        exact .inr ⟨l', rfl, stopped⟩

end

theorem lexer_outcome (buffer : List UInt8) :
    (∃ l pieces, lexer (initLexer buffer) = .ok () l ∧ ReadsAll (initLexer buffer) l pieces buffer) ∨
      ∃ l, lexer (initLexer buffer) = .error .exit l ∧ l.Stopped := by
  have start : (initLexer buffer).At buffer := ⟨Nat.zero_le _, rfl⟩
  have enough : buffer.length < lexerFuel buffer.length := Nat.lt_add_of_pos_right Nat.two_pos
  exact lexerLoop_outcome start enough enough

/-- The lexer ends at the end of its buffer, or through an exit of `get_string`.
It never peaks behind the terminating zero, which would be a fault. The pieces it
has read, in order, are the buffer, and the tokens are those of the pieces. -/
theorem lexer_total (buffer : List UInt8) :
    (∃ l pieces, lexer (initLexer buffer) = .ok () l ∧ l.i = buffer.length ∧
      CutUp 0 pieces buffer ∧ (pieces.map (·.text)).flatten = buffer ∧
      (∀ piece ∈ pieces, piece.text ≠ []) ∧ l.tokens = pieces.filterMap (·.token)) ∨
    ∃ l, lexer (initLexer buffer) = .error .exit l ∧ l.Stopped := by
  rcases lexer_outcome buffer with ⟨l, pieces, run, all⟩ | stopped
  · have cut : CutUp 0 pieces buffer := all.takes.cut
    exact .inl ⟨l, pieces, run, all.i, cut, cut.flatten, cut.nonempty, all.tokens⟩
  · exact .inr stopped

end Trident
