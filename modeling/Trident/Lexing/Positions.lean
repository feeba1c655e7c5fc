import Trident.Lexing.Coverage

/-! The line and the column of each token. A blank outside comments and literals
counts as two columns, so that the column of a token is too large by the number of
such blanks on its line. -/

set_option autoImplicit false

namespace Trident

/-- Where a byte stands in a text. -/
inductive Spot where
  | plain
  | slash
  | comment
  | star
  | literal (quote : UInt8)
  | escape (quote : UInt8)

/-- A place, and the number of blanks outside comments and literals since the start
of the line. -/
structure Caret where
  place : Spot
  blanks : Nat

namespace Caret

/-- Behind a byte outside comments and literals. -/
def outside (blanks : Nat) (c : UInt8) : Caret :=
  if c = byte '\n' then ⟨.plain, 0⟩
  else if isspace c then ⟨.plain, blanks + 1⟩
  else if c = byte '/' then ⟨.slash, blanks⟩
  else if c = byte '"' ∨ c = byte '\'' then ⟨.literal c, blanks⟩
  else ⟨.plain, blanks⟩

/-- Behind a byte of a comment. -/
def inside (blanks : Nat) (c : UInt8) : Caret :=
  ⟨if c = byte '*' then .star else .comment, if c = byte '\n' then 0 else blanks⟩

def next (caret : Caret) (c : UInt8) : Caret :=
  match caret.place with
  | .plain => outside caret.blanks c
  | .slash => if c = byte '*' then ⟨.star, caret.blanks⟩ else outside caret.blanks c
  | .comment => inside caret.blanks c
  | .star => if c = byte '/' then ⟨.plain, caret.blanks⟩ else inside caret.blanks c
  | .literal quote =>
      if c = quote then ⟨.plain, caret.blanks⟩
      else if c = byte '*' then ⟨.escape quote, caret.blanks⟩
      else caret
  | .escape quote => ⟨.literal quote, caret.blanks⟩

def across (caret : Caret) (text : List UInt8) : Caret := text.foldl next caret

theorem across_cons (caret : Caret) (c : UInt8) (text : List UInt8) :
    caret.across (c :: text) = (caret.next c).across text := rfl

theorem across_append (caret : Caret) (text more : List UInt8) :
    caret.across (text ++ more) = (caret.across text).across more := List.foldl_append

/-- The next byte is outside comments and literals. -/
def Outside (caret : Caret) (text : List UInt8) : Prop :=
  ∀ c ∈ text.head?, caret.next c = outside caret.blanks c

/-- The counters of the lexer at a position. -/
def shift (caret : Caret) (position : Position) : Position :=
  ⟨position.ln, position.cn + caret.blanks⟩

end Caret

/-- The number of blanks outside comments and literals on the last line of a text. -/
def blanksBefore (text : List UInt8) : Nat := (Caret.across ⟨.plain, 0⟩ text).blanks

namespace Caret

variable {caret : Caret} {blanks strings : Nat} {c : UInt8} {text more : List UInt8} {piece : Piece}

theorem outside_plain (blanks : Nat) (text : List UInt8) : Outside ⟨.plain, blanks⟩ text :=
  fun _ _ => rfl

theorem Outside.next (outside : caret.Outside (c :: text)) :
    caret.next c = Caret.outside caret.blanks c := outside c rfl

theorem outside_word (word : isWordByte c = true) : outside blanks c = ⟨.plain, blanks⟩ := by
  have other : ∀ d, isWordByte d = false → c ≠ d := by
    rintro d apart rfl
    cases apart.symm.trans word
  rw [outside, if_neg (other _ rfl), isspace_of_isWordByte c word, if_neg Bool.false_ne_true,
    if_neg (other _ rfl), if_neg]
  rintro (quote | quote)
  · exact other _ rfl quote
  · exact other _ rfl quote

theorem across_word (all : ∀ c ∈ text, isWordByte c = true) :
    across ⟨.plain, blanks⟩ text = ⟨.plain, blanks⟩ := by
  induction text with
  | nil => rfl
  | cons c text ih =>
      obtain ⟨first, later⟩ := List.forall_mem_cons.mp all
      have step : next ⟨.plain, blanks⟩ c = ⟨.plain, blanks⟩ := outside_word first
      rw [across_cons, step, ih later]

theorem Outside.across_word (outside : caret.Outside (c :: text))
    (all : ∀ d ∈ c :: text, isWordByte d = true) :
    caret.across (c :: text) = ⟨.plain, caret.blanks⟩ := by
  obtain ⟨first, later⟩ := List.forall_mem_cons.mp all
  rw [across_cons, outside.next, outside_word first, Caret.across_word later]

theorem across_body {q : UInt8} (quote : IsQuote q) (body : Body q text) :
    across ⟨.literal q, blanks⟩ text = ⟨.literal q, blanks⟩ := by
  induction body with
  | nil => rfl
  | byte other _ _ plain _ ih =>
      rw [across_cons, next]
      dsimp only
      rw [if_neg other, if_neg plain, ih]
  | escape _ _ _ ih =>
      rw [across_cons, next]
      dsimp only
      rw [if_neg quote.plain.symm, if_pos rfl, across_cons]
      exact ih

theorem Outside.across_literal {q : UInt8} (literal : q = byte '"' ∨ q = byte '\'')
    (body : Body q text) (outside : caret.Outside (q :: (text ++ [q]))) :
    caret.across (q :: (text ++ [q])) = ⟨.plain, caret.blanks⟩ := by
  have opens : Caret.outside caret.blanks q = ⟨.literal q, caret.blanks⟩ := by
    rcases literal with rfl | rfl <;> rfl
  have quote : IsQuote q := by
    rcases literal with rfl | rfl <;> exact ⟨by decide, by decide⟩
  rw [across_cons, outside.next, opens, across_append, across_body quote body, across_cons, Caret.next]
  dsimp only
  rw [if_pos rfl]
  rfl

theorem outside_operator (starts : StartsOperator c more) :
    outside blanks c = ⟨if c = byte '/' then .slash else .plain, blanks⟩ := by
  have line : c ≠ byte '\n' := by
    rintro rfl
    cases starts.space
  have quote : ¬ (c = byte '"' ∨ c = byte '\'') := not_or.mpr ⟨starts.string, starts.character⟩
  rw [outside, if_neg line, starts.space, if_neg Bool.false_ne_true, if_neg quote]
  split <;> rfl

/-- A slash that is an operator does not open a comment. -/
theorem outside_operator_next (starts : StartsOperator c more) :
    (outside blanks c).Outside more := by
  rw [outside_operator starts]
  split
  · rename_i slash
    rintro d next
    have other : d ≠ byte '*' := by
      rintro rfl
      refine starts.comment ⟨slash, ?_⟩
      rw [List.headD_eq_head?_getD, Option.mem_def.mp next]
      rfl
    exact if_neg other
  · exact outside_plain _ _

theorem outside_second {d : UInt8}
    (listed : d ∈ [byte '+', byte '-', byte '=', byte '<', byte '>']) :
    outside blanks d = ⟨.plain, blanks⟩ := by
  simp only [List.mem_cons, List.not_mem_nil, or_false] at listed
  rcases listed with rfl | rfl | rfl | rfl | rfl <;> rfl

theorem shift_eq_iff (caret : Caret) (position : Position) :
    caret.shift position = position ↔ caret.blanks = 0 := by
  obtain ⟨ln, cn⟩ := position
  simp [shift]

/-- In a comment: behind a star, the next byte does not close it. -/
def Within (caret : Caret) (text : List UInt8) : Prop :=
  caret.place = .comment ∨ caret.place = .star ∧ text.head? ≠ some (byte '/')

theorem Within.next (within : caret.Within (c :: text)) : caret.next c = inside caret.blanks c := by
  obtain ⟨place, blanks⟩ := caret
  rcases within with rfl | ⟨rfl, open_⟩
  · rfl
  · exact if_neg fun slash => open_ (congrArg some slash)

theorem shift_inside (position : Position) :
    (inside caret.blanks c).shift (position.next c) = (caret.shift position).next c := by
  unfold inside shift Position.next
  split
  · rfl
  · simp only [Position.mk.injEq, true_and]
    omega

theorem across_comment (comment : Comment more text) (within : caret.Within text)
    (position : Position) :
    (caret.across text).Outside more ∧
      (caret.across text).shift (position.across text) = (caret.shift position).across text := by
  induction comment generalizing caret position with
  | close =>
      have star : caret.next (byte '*') = ⟨.star, caret.blanks⟩ := within.next
      have closed : caret.across [byte '*', byte '/'] = ⟨.plain, caret.blanks⟩ := by
        rw [across_cons, star]
        rfl
      rw [closed]
      refine ⟨outside_plain _ _, ?_⟩
      simp [Position.across, Position.next, shift, byte]
      omega
  | unterminated ended =>
      subst ended
      exact ⟨(fun _ member => by cases member), rfl⟩
  | @inside c text open_ _ ih =>
      have later : (inside caret.blanks c).Within text := by
        by_cases star : c = byte '*'
        · exact .inr ⟨if_pos star, fun slash => open_ ⟨star, slash⟩⟩
        · exact .inl (if_neg star)
      have shifted : (inside caret.blanks c).shift (position.next c) =
          (caret.shift position).next c := shift_inside position
      rw [across_cons, within.next, Position.across_cons, Position.across_cons, ← shifted]
      exact ih later _

/-- The star that opens a comment can close it. -/
theorem comment_opened (comment : Comment more (byte '/' :: byte '*' :: text)) :
    text = [byte '/'] ∨ Comment more text ∧ text.head? ≠ some (byte '/') := by
  cases comment with
  | inside _ comment =>
      cases comment with
      | close => exact .inl rfl
      | inside open_ comment => exact .inr ⟨comment, fun slash => open_ ⟨rfl, slash⟩⟩

/-- A piece is taken outside comments and literals, and ends there. -/
theorem Outside.across_piece (taken : piece.Taken strings more)
    (outside : caret.Outside (piece.text ++ more)) (position : Position) :
    (caret.across piece.text).Outside more ∧
      (caret.across piece.text).shift (position.across piece.text) =
        piece.counted (caret.shift position) := by
  -- A token leaves the number of blanks as it is.
  have token : ∀ {text token}, Piece.Taken strings more ⟨text, some token⟩ →
      (caret.across text).blanks = caret.blanks →
      (caret.across text).shift (position.across text) =
        Piece.counted ⟨text, some token⟩ (caret.shift position) := by
    intro text token taken same
    obtain ⟨c, rest, rfl, space⟩ := taken.first_byte
    rw [Piece.counted, List.all_cons, isBlank, space, Bool.false_and, Bool.false_and,
      if_neg Bool.false_ne_true, Position.across_line taken.line, Position.across_line taken.line,
      shift, same, shift]
    simp only [Position.mk.injEq, true_and]
    omega
  have plain : ∀ {text token}, Piece.Taken strings more ⟨text, some token⟩ →
      caret.across text = ⟨.plain, caret.blanks⟩ → (caret.across text).Outside more ∧
        (caret.across text).shift (position.across text) =
          Piece.counted ⟨text, some token⟩ (caret.shift position) := by
    intro text _ taken same
    have blanks : (caret.across text).blanks = caret.blanks := by rw [same]
    refine ⟨?_, token taken blanks⟩
    rw [same]
    exact outside_plain _ _
  have whole := taken
  cases taken with
  | @space c space =>
      rw [across_cons, outside.next, Caret.outside, if_pos space]
      by_cases newline : c = byte '\n'
      · subst newline
        exact ⟨outside_plain _ _, rfl⟩
      · rw [if_neg newline]
        refine ⟨outside_plain _ _, ?_⟩
        simp only [Piece.counted, isBlank, Position.across, Position.next, across, shift, List.foldl,
          List.all_cons, List.all_nil, space, bne_iff_ne, Bool.and_eq_true, ne_eq, newline,
          not_false_eq_true, and_self, if_true, if_false, Position.mk.injEq, true_and]
        omega
  | @comment text comment =>
      have opened : caret.across (byte '/' :: byte '*' :: text) =
          across ⟨.star, caret.blanks⟩ text := by
        rw [across_cons, outside.next]
        rfl
      have uncounted : Piece.counted ⟨byte '/' :: byte '*' :: text, none⟩ (caret.shift position) =
          (caret.shift position).across (byte '/' :: byte '*' :: text) := rfl
      rw [uncounted, opened]
      have started : shift ⟨.star, caret.blanks⟩ (position.across [byte '/', byte '*']) =
          (caret.shift position).across [byte '/', byte '*'] := by
        simp [Position.across, Position.next, shift, byte]
        omega
      have whole : ∀ start : Position, start.across (byte '/' :: byte '*' :: text) =
          (start.across [byte '/', byte '*']).across text := fun _ => rfl
      rw [whole, whole, ← started]
      rcases comment_opened comment with rfl | ⟨inner, open_⟩
      · have closed : across ⟨.star, caret.blanks⟩ [byte '/'] = ⟨.plain, caret.blanks⟩ := rfl
        rw [closed]
        refine ⟨outside_plain _ _, ?_⟩
        simp [Position.across, Position.next, shift, byte]
        omega
      · exact across_comment inner (.inr ⟨rfl, open_⟩) _
  | word first all stops =>
      exact plain whole
        (Outside.across_word outside (List.forall_mem_cons.mpr ⟨isWordByte_first first, all⟩))
  | number digit same =>
      exact plain whole
        (Outside.across_word outside (Piece.Taken.word_bytes same))
  | character body decodes =>
      exact plain whole (Outside.across_literal (.inr rfl) body outside)
  | string body decodes =>
      exact plain whole (Outside.across_literal (.inl rfl) body outside)
  | single starts one =>
      rename_i c _
      have first : caret.across [c] = Caret.outside caret.blanks c := outside.next
      refine ⟨?_, token whole ?_⟩
      · rw [first]
        exact outside_operator_next starts
      · rw [first, outside_operator starts]
  | double starts two =>
      rename_i c d _
      have first : caret.next c = Caret.outside caret.blanks c := outside.next
      have second : (Caret.outside caret.blanks c).next d =
          Caret.outside (Caret.outside caret.blanks c).blanks d := outside_operator_next starts d rfl
      refine plain whole ?_
      rw [across_cons, first, across_cons, second, outside_operator starts,
        outside_second (operatorAt_second two)]
      rfl

end Caret

def textOf (pieces : List Piece) : List UInt8 := (pieces.map (·.text)).flatten

/-- The column of a token is too large by the number of blanks before it on its line. -/
theorem Takes.position {strings : Nat} {pieces : List Piece} {text : List UInt8} {caret : Caret}
    {position : Position} (takes : Takes strings pieces text) (outside : caret.Outside text)
    (counted : Counted (caret.shift position) pieces) {before after : List Piece} {piece : Piece}
    {token : Token} (split : pieces = before ++ piece :: after) (found : piece.token = some token) :
    token.position = (caret.across (textOf before)).shift (position.across (textOf before)) := by
  induction takes generalizing caret position before with
  | nil => cases before <;> cases split
  | cons taken _ ih =>
      obtain ⟨ends, moved⟩ := outside.across_piece taken position
      cases counted with
      | cons located later =>
          cases before with
          | nil =>
              cases split
              exact located token found
          | cons first before =>
              cases split
              rw [textOf, List.map_cons, List.flatten_cons, Caret.across_append, Position.across_append]
              exact ih ends (moved ▸ later) rfl

/-- The position of a token is that of its first byte if no blank is before it on its
line, outside comments and literals. -/
theorem lexer_position_iff (buffer : List UInt8) :
    (∃ l pieces, lexer (initLexer buffer) = .ok () l ∧ CutUp 0 pieces buffer ∧
      l.tokens = tokensOf pieces ∧
      ∀ before piece after token, pieces = before ++ piece :: after → piece.token = some token →
        (token.position = Position.across ⟨1, 1⟩ (textOf before) ↔
          blanksBefore (textOf before) = 0)) ∨
    ∃ l, lexer (initLexer buffer) = .error .exit l ∧ l.Stopped := by
  rcases lexer_outcome buffer with ⟨l, pieces, run, all⟩ | stopped
  · refine .inl ⟨l, pieces, run, all.takes.cut, all.tokens, ?_⟩
    intro before piece after token split found
    have start : Caret.Outside ⟨.plain, 0⟩ buffer := Caret.outside_plain 0 buffer
    have counted : Counted (Caret.shift ⟨.plain, 0⟩ ⟨1, 1⟩) pieces := all.counted
    rw [all.takes.position start counted split found]
    exact Caret.shift_eq_iff _ _
  · exact .inr stopped

/-- The text ` x`. -/
def indented : List UInt8 := [byte ' ', byte 'x']

/-- The second byte of the text is said to be in column 3. -/
theorem lexer_position_indented :
    ∃ l, lexer (initLexer indented) = .ok () l ∧
      l.tokens = [⟨.identifier, some [byte 'x'], 0, ⟨1, 3⟩⟩] ∧
      Position.across ⟨1, 1⟩ [byte ' '] = ⟨1, 2⟩ :=
  ⟨_, rfl, by decide, by decide⟩

end Trident
