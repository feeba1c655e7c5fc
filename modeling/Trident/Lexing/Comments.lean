import Trident.Lexing.Printing

/-! What a run of the lexer reads from a text, by the text alone, and a comment
in the place of a blank. -/

set_option autoImplicit false

namespace Trident

open Foundation

/-! The reading of a text as a relation. -/

def Piece.meanings (piece : Piece) : List Meaning := (piece.token.map Token.meaning).toList

theorem Piece.strings_eq (piece : Piece) :
    piece.strings = if piece.meanings.any (·.kind = .string) then 1 else 0 := by
  obtain ⟨text, token⟩ := piece
  cases token with
  | none => rfl
  | some token => simp [Piece.strings, Piece.meanings, Token.meaning]

/-- The meanings of a text behind `strings` literals, none if the run is ended by a
diagnostic. -/
inductive Lexes : Nat → List UInt8 → Option (List Meaning) → Prop where
  | nil {strings} : Lexes strings [] (some [])
  | piece {strings : Nat} {piece : Piece} {more out} : piece.Taken strings more →
      Lexes (strings + piece.strings) more out →
      Lexes strings (piece.text ++ more) (out.map (piece.meanings ++ ·))
  | stop {strings : Nat} {text} : text ≠ [] →
      (∀ (piece : Piece) more, text = piece.text ++ more → ¬ piece.Taken strings more) →
      Lexes strings text none

/-- The pieces up to `more`. Comments are closed before it. -/
inductive Reaches (more : List UInt8) : Nat → List UInt8 → List Meaning → Nat → Prop where
  | done {strings} : Reaches more strings [] [] strings
  | piece {strings : Nat} {piece : Piece} {text meanings last} : piece.Taken strings (text ++ more) →
      (∀ behind, piece.Valid strings behind) →
      Reaches more (strings + piece.strings) text meanings last →
      Reaches more strings (piece.text ++ text) (piece.meanings ++ meanings) last

/-- The text `front ++ back` can be split there: at the end of a piece, outside
literals and comments. -/
def Boundary (front back : List UInt8) : Prop :=
  ∃ meanings last, Reaches back 0 front meanings last

/-- What `lexer` gives for a text, without the positions. -/
def lexMeanings (text : List UInt8) : Option (List Meaning) :=
  match lexer (initLexer text) with
  | .ok () l => some (l.tokens.map Token.meaning)
  | .error _ _ => none

theorem Lexes.total (strings : Nat) (text : List UInt8) : ∃ out, Lexes strings text out := by
  induction size : text.length using Nat.strong_induction_on generalizing strings text with
  | _ size ih =>
      subst size
      by_cases empty : text = []
      · subst empty
        exact ⟨_, .nil⟩
      by_cases found : ∃ (piece : Piece) (more : List UInt8), text = piece.text ++ more ∧ piece.Taken strings more
      · obtain ⟨piece, more, rfl, taken⟩ := found
        have nonempty := List.length_pos_iff.mpr taken.valid.nonempty
        have shorter : more.length < (piece.text ++ more).length := by
          rw [List.length_append]
          omega
        obtain ⟨out, lexes⟩ := ih _ shorter (strings + piece.strings) more rfl
        exact ⟨_, .piece taken lexes⟩
      · exact ⟨none, .stop empty fun piece more same taken => found ⟨piece, more, same, taken⟩⟩

section

variable {l : Lexer} {piece : Piece} {text more : List UInt8} {fuel rounds strings : Nat}

/-- Where a comment ends is determined by the text. -/
theorem Comment.unique {first second behind : List UInt8} (one : Comment more first)
    (two : Comment behind second) (same : first ++ more = second ++ behind) : first = second := by
  induction one generalizing second with
  | close =>
      cases two with
      | close => rfl
      | unterminated ended =>
          subst ended
          cases same
      | @inside c text open_ inner =>
          obtain ⟨rfl, rest⟩ := List.cons.inj same
          cases inner with
          | close => exact absurd (List.cons.inj rest).1 (by decide)
          | unterminated ended =>
              subst ended
              cases rest
          | inside _ _ => exact absurd ⟨rfl, congrArg some (List.cons.inj rest).1.symm⟩ open_
  | unterminated ended =>
      subst ended
      exact (List.append_eq_nil_iff.mp same.symm).1.symm
  | @inside c text open_ inner ih =>
      cases two with
      | close =>
          obtain ⟨rfl, rest⟩ := List.cons.inj same
          cases inner with
          | close => exact absurd (List.cons.inj rest).1 (by decide)
          | unterminated ended =>
              subst ended
              cases rest
          | inside _ _ => exact absurd ⟨rfl, congrArg some (List.cons.inj rest).1⟩ open_
      | unterminated ended =>
          subst ended
          cases same
      | inside _ later =>
          obtain ⟨rfl, rest⟩ := List.cons.inj same
          rw [ih later rest]

/-- The next iteration reads a piece that says what `piece` says. -/
private theorem lexToken_taken (taken : piece.Taken l.srtDataC more) (at_ : l.At (piece.text ++ more))
    (enough : (piece.text ++ more).length < fuel) :
    ∃ read, NextPiece fuel l read more ∧ read.text = piece.text ∧
      read.meanings = piece.meanings := by
  have shorter : piece.text.length < fuel := by
    rw [List.length_append] at enough
    omega
  cases taken with
  | space space => exact ⟨_, lexToken_space at_ space, rfl, rfl⟩
  | @comment text comment =>
      obtain ⟨inner, behind, same, next⟩ := lexToken_comment at_ enough
      obtain ⟨l', run, reads⟩ := next
      have valid : Comment behind (byte '/' :: byte '*' :: inner) := by
        cases reads.valid with
        | comment valid => exact valid
      have whole : byte '/' :: byte '*' :: text ++ more = byte '/' :: byte '*' :: inner ++ behind :=
        congrArg (byte '/' :: byte '*' :: ·) same
      have unique := comment.unique valid whole
      obtain rfl : text = inner := (List.cons.inj (List.cons.inj unique).2).2
      obtain rfl := List.append_cancel_left whole
      exact ⟨_, ⟨l', run, reads⟩, rfl, rfl⟩
  | word first all stops =>
      have space := isspace_of_isWordByte _ (isWordByte_first first)
      obtain ⟨position, next⟩ := lexToken_word at_ space first all stops shorter
      exact ⟨_, next, rfl, rfl⟩
  | @number c text _ digit same =>
      have space := isspace_eq_false isdigit (by decide +kernel) digit
      have here : l.At (c :: (text ++ more)) := at_
      obtain ⟨position, behind, whole, next⟩ :=
        lexToken_number here space (digit_not_letter digit) digit enough
      have taken : numberText (c :: (text ++ more)) = c :: text := same
      rw [taken] at whole next
      obtain rfl := List.append_cancel_left whole
      exact ⟨_, next, rfl, rfl⟩
  | @character text _ _ body decodes =>
      have literal : l.At (byte '\'' :: (text ++ byte '\'' :: more)) := by
        simpa using at_
      have fewer : text.length + 1 < fuel := by
        simpa using Nat.lt_of_succ_lt shorter
      obtain ⟨position, next⟩ := (lexToken_character body literal fewer).1 _ decodes
      exact ⟨_, next, rfl, rfl⟩
  | @string text _ _ body decodes =>
      have literal : l.At (byte '"' :: (text ++ byte '"' :: more)) := by
        simpa using at_
      have fewer : text.length + 1 < fuel := by
        simpa using Nat.lt_of_succ_lt shorter
      obtain ⟨position, next⟩ := (lexToken_string body literal fewer).1 _ decodes
      exact ⟨_, next, rfl, rfl⟩
  | @single c _ starts one =>
      have here : l.At (c :: more) := at_
      obtain ⟨text, behind, position, whole, length, next⟩ := lexToken_operator here starts
      rw [one] at length
      have parts : [c] ++ more = text ++ behind := whole
      obtain ⟨rfl, rfl⟩ := List.append_inj parts length.symm
      exact ⟨_, next, rfl, rfl⟩
  | @double c d _ starts two =>
      have here : l.At (c :: d :: more) := at_
      obtain ⟨text, behind, position, whole, length, next⟩ := lexToken_operator here starts
      rw [List.headD_cons, two] at length
      have parts : [c, d] ++ more = text ++ behind := whole
      obtain ⟨rfl, rfl⟩ := List.append_inj parts length.symm
      exact ⟨_, next, rfl, rfl⟩

private theorem lexerLoop_lexes {out : Option (List Meaning)} (lexes : Lexes strings text out)
    (at_ : l.At text) (numbered : l.srtDataC = strings) (rounds_enough : text.length < rounds)
    (enough : text.length < fuel) :
    match lexerLoop fuel rounds l with
    | .ok () final => out.map (l.tokens.map Token.meaning ++ ·) = some (final.tokens.map Token.meaning)
    | .error _ _ => out = none := by
  obtain ⟨rounds, rfl⟩ := Nat.exists_eq_succ_of_ne_zero (Nat.ne_zero_of_lt rounds_enough)
  induction lexes generalizing l rounds with
  | nil =>
      rw [lexerLoop_end at_]
      simp
  | @piece strings piece more out taken _ ih =>
      subst numbered
      have nonempty := List.length_pos_iff.mpr taken.valid.nonempty
      obtain ⟨read, ⟨l', run, reads⟩, text, meanings⟩ := lexToken_taken taken at_ enough
      have numbered : l'.srtDataC = l.srtDataC + piece.strings := by
        rw [reads.strings, read.strings_eq, piece.strings_eq, meanings]
      rw [List.length_append] at rounds_enough enough
      obtain ⟨rounds, rfl⟩ : ∃ fewer, rounds = fewer + 1 := ⟨rounds - 1, by omega⟩
      have rest := ih reads.at_more numbered (by omega) rounds (by omega)
      have tokens : l'.tokens.map Token.meaning = l.tokens.map Token.meaning ++ piece.meanings := by
        rw [reads.tokens, List.map_append, ← meanings, Piece.meanings]
        cases read.token <;> rfl
      have some_left : piece.text ++ more ≠ [] :=
        fun empty => taken.valid.nonempty (List.append_eq_nil_iff.mp empty).1
      rw [lexerLoop_step at_ some_left, bind_run_of_ok run]
      rw [tokens] at rest
      cases later : lexerLoop fuel (rounds + 1) l' with
      | ok _ final =>
          rw [later] at rest
          simpa [Function.comp_def] using rest
      | error _ _ =>
          rw [later] at rest
          exact congrArg _ rest
  | stop nonempty none_taken =>
      rw [lexerLoop_step at_ nonempty]
      rcases lexToken_outcome at_ nonempty enough with ⟨piece, more, l', run, reads⟩ | ⟨l', run, -⟩
      · have same := at_.rest.symm.trans reads.before.rest
        exact absurd (numbered ▸ reads.taken) (none_taken piece more same)
      · rw [bind_run_of_error run]

end

private theorem lexMeanings_eq {text : List UInt8} {out : Option (List Meaning)} (lexes : Lexes 0 text out) :
    lexMeanings text = out := by
  have start : (initLexer text).At text := ⟨Nat.zero_le _, rfl⟩
  have enough : text.length < lexerFuel text.length := Nat.lt_add_of_pos_right Nat.two_pos
  have result := lexerLoop_lexes lexes start rfl enough enough
  have unread : (initLexer text).tokens = [] := rfl
  have run : lexer (initLexer text) =
      lexerLoop (lexerFuel text.length) (lexerFuel text.length) (initLexer text) := rfl
  rw [lexMeanings, run]
  split
  · rename_i found
    rw [found] at result
    simpa [unread] using result.symm
  · rename_i found
    rw [found] at result
    exact result.symm

/-! A blank in place of the text behind a piece. -/

section Blank

variable {test : UInt8 → Bool} {text more behind : List UInt8} {strings : Nat} {piece : Piece}

/-- The next byte is the same, or a space. -/
def SameNext (more behind : List UInt8) : Prop :=
  behind.headD 0 = more.headD 0 ∨ behind.headD 0 = byte ' '

private theorem sameNext_stops (follows : SameNext more behind) (space : test (byte ' ') = false)
    (stops : test (more.headD 0) = false) : test (behind.headD 0) = false := by
  rcases follows with same | same
  · rwa [same]
  · rwa [same]

private theorem takeWhile_append_eq_iff (zero : test 0 = false) :
    (text ++ more).takeWhile test = text ↔
      (∀ c ∈ text, test c = true) ∧ test (more.headD 0) = false := by
  constructor
  · intro same
    have all : ∀ c ∈ text, test c = true := fun c member => List.mem_takeWhile_imp (same ▸ member)
    refine ⟨all, ?_⟩
    rw [List.takeWhile_append_of_pos all] at same
    have none_taken := List.append_right_eq_self.mp same
    cases more with
    | nil => exact zero
    | cons d more =>
        by_contra passes
        rw [List.takeWhile_cons_of_pos (by simpa using passes)] at none_taken
        cases none_taken
  · rintro ⟨all, stops⟩
    rw [List.takeWhile_append_of_pos all]
    cases more with
    | nil => exact List.append_nil _
    | cons d more =>
        rw [List.takeWhile_cons_of_neg (by simpa using stops), List.append_nil]

private theorem takeWhile_sameNext (zero : test 0 = false) (space : test (byte ' ') = false)
    (follows : SameNext more behind) (same : (text ++ more).takeWhile test = text) :
    (text ++ behind).takeWhile test = text := by
  obtain ⟨all, stops⟩ := (takeWhile_append_eq_iff zero).mp same
  exact (takeWhile_append_eq_iff zero).mpr ⟨all, sameNext_stops follows space stops⟩

private theorem numberText_sameNext {c : UInt8} (follows : SameNext more behind)
    (same : numberText (c :: (text ++ more)) = c :: text) :
    numberText (c :: (text ++ behind)) = c :: text := by
  by_cases zero : c = byte '0'
  · cases text with
    | nil =>
        have hex : ¬ (more.headD 0 = byte 'x' ∨ more.headD 0 = byte 'X') := by
          intro hex
          cases more with
          | nil => exact absurd hex (by decide)
          | cons d more =>
              rw [List.nil_append, numberText_hex zero (by simpa using hex)] at same
              cases same
        have binary : ¬ (more.headD 0 = byte 'b' ∨ more.headD 0 = byte 'B') := by
          intro binary
          cases more with
          | nil => exact absurd binary (by decide)
          | cons d more =>
              rw [List.nil_append, numberText_binary zero (by simpa using hex) (by simpa using binary)] at same
              cases same
        have unmarked : ∀ {first second : UInt8}, byte ' ' ≠ first → byte ' ' ≠ second →
            ¬ (more.headD 0 = first ∨ more.headD 0 = second) →
            ¬ (behind.headD 0 = first ∨ behind.headD 0 = second) := by
          intro first second one two other
          rcases follows with same | same
          · rwa [same]
          · rw [same]
            exact not_or.mpr ⟨one, two⟩
        rw [List.nil_append, numberText_octal zero hex binary] at same
        rw [List.nil_append, numberText_octal zero (unmarked (by decide) (by decide) hex)
          (unmarked (by decide) (by decide) binary)]
        have digits : ([] ++ more).takeWhile isdigit = [] := (List.cons.inj same).2
        exact congrArg _ (takeWhile_sameNext rfl rfl follows digits)
    | cons d text =>
        by_cases hex : d = byte 'x' ∨ d = byte 'X'
        · rw [List.cons_append, numberText_hex zero hex] at same ⊢
          have digits := (List.cons.inj (List.cons.inj same).2).2
          rw [takeWhile_sameNext rfl rfl follows digits]
        by_cases binary : d = byte 'b' ∨ d = byte 'B'
        · rw [List.cons_append, numberText_binary zero hex binary] at same ⊢
          have digits := (List.cons.inj (List.cons.inj same).2).2
          rw [takeWhile_sameNext rfl rfl follows digits]
        · have octal : ∀ tail, numberText (c :: (d :: text ++ tail)) =
              c :: (d :: text ++ tail).takeWhile isdigit :=
            fun tail => numberText_octal zero hex binary
          rw [octal] at same ⊢
          rw [takeWhile_sameNext rfl rfl follows (List.cons.inj same).2]
  · rw [numberText_decimal zero] at same ⊢
    have digits : (c :: text ++ more).takeWhile isdigit = c :: text := same
    exact takeWhile_sameNext rfl rfl follows digits

private theorem operatorAt_space {c d : UInt8} (one : (operatorAt c d).2 = 0) :
    operatorAt c (byte ' ') = operatorAt c d := by
  have pair : ∀ {second : Char} {first other}, byte ' ' ≠ byte second →
      (operatorAt.pair d second first other).2 = 0 →
      operatorAt.pair (byte ' ') second first other = operatorAt.pair d second first other := by
    intro second first other apart
    unfold operatorAt.pair
    rw [if_neg apart]
    split
    · nofun
    · exact fun _ => rfl
  unfold operatorAt at one ⊢
  split_ifs at one ⊢
  all_goals first | exact pair (by decide) one | rfl | cases one | exact absurd ‹byte ' ' = byte '='› (by decide)

theorem Piece.Taken.sameNext (taken : piece.Taken strings more)
    (closed : ∀ behind, piece.Valid strings behind) (follows : SameNext more behind) :
    ∃ read : Piece, read.Taken strings behind ∧ read.text = piece.text ∧
      read.meanings = piece.meanings := by
  cases taken with
  | space space => exact ⟨_, .space space, rfl, rfl⟩
  | comment comment =>
      cases closed behind with
      | comment comment => exact ⟨_, .comment comment, rfl, rfl⟩
  | word first all stops =>
      exact ⟨_, .word first all (sameNext_stops follows rfl stops), rfl, rfl⟩
  | number digit same => exact ⟨_, .number digit (numberText_sameNext follows same), rfl, rfl⟩
  | character body decodes => exact ⟨_, .character body decodes, rfl, rfl⟩
  | string body decodes => exact ⟨_, .string body decodes, rfl, rfl⟩
  | @single c position starts one =>
      have kind : operatorAt c (behind.headD 0) = operatorAt c (more.headD 0) := by
        rcases follows with same | space
        · rw [same]
        · rw [space, operatorAt_space one]
      have comment : ¬ (c = byte '/' ∧ behind.headD 0 = byte '*') := by
        rintro ⟨slash, star⟩
        rcases follows with same | space
        · exact starts.comment ⟨slash, same.symm.trans star⟩
        · exact absurd (space.symm.trans star) (by decide)
      have one' : (operatorAt c (behind.headD 0)).2 = 0 := by rw [kind, one]
      refine ⟨⟨[c], some ⟨(operatorAt c (behind.headD 0)).1, none, 0, position⟩⟩,
        .single { starts with comment } one', rfl, ?_⟩
      rw [kind]
  | double starts two =>
      exact ⟨_, .double { starts with comment := starts.comment } two, rfl, rfl⟩

/-- A blank can stand behind a boundary. -/
theorem Reaches.lexes {front back : List UInt8} {last : Nat} {meanings : List Meaning}
    {out : Option (List Meaning)} (reaches : Reaches back strings front meanings last)
    (lexes : Lexes last (byte ' ' :: more) out) :
    Lexes strings (front ++ byte ' ' :: more) (out.map (meanings ++ ·)) := by
  induction reaches with
  | done => simpa using lexes
  | @piece strings piece text meanings last taken closed _ ih =>
      have follows : SameNext (text ++ back) (text ++ byte ' ' :: more) := by
        cases text with
        | nil => exact .inr rfl
        | cons c text => exact .inl rfl
      obtain ⟨read, taken, same, meaning⟩ := taken.sameNext closed follows
      have strings_eq : read.strings = piece.strings := by
        rw [read.strings_eq, piece.strings_eq, meaning]
      have whole := Lexes.piece taken (strings_eq ▸ ih lexes)
      rw [meaning, same, Option.map_map] at whole
      simpa [Function.comp_def] using whole

end Blank

/-! The text of a comment. -/

section Body

variable {body text more : List UInt8} {strings : Nat} {out : Option (List Meaning)}

theorem Lexes.space {c : UInt8} (space : isspace c = true) (lexes : Lexes strings text out) :
    Lexes strings (c :: text) out := by
  have read := Lexes.piece (.space space) lexes
  simpa [Piece.meanings] using read

theorem Lexes.spaces {gap : List UInt8} (lexes : Lexes strings text out)
    (all : ∀ c ∈ gap, isspace c = true) : Lexes strings (gap ++ text) out := by
  induction gap with
  | nil => exact lexes
  | cons c gap ih =>
      obtain ⟨first, later⟩ := List.forall_mem_cons.mp all
      exact .space first (ih later)

theorem Lexes.comment (comment : Comment more (byte '/' :: byte '*' :: text))
    (lexes : Lexes strings more out) :
    Lexes strings (byte '/' :: byte '*' :: text ++ more) out := by
  have read := Lexes.piece (.comment comment) lexes
  simpa [Piece.meanings] using read

/-- The text does not contain the pair that closes a comment. -/
def Unclosed (text : List UInt8) : Prop := ¬ [byte '*', byte '/'] <:+: text

theorem Unclosed.tail {c : UInt8} (unclosed : Unclosed (c :: text)) : Unclosed text :=
  fun pair => unclosed (pair.trans (List.suffix_cons c text).isInfix)

theorem Unclosed.pair {d : UInt8} (unclosed : Unclosed (byte '*' :: d :: text)) : d ≠ byte '/' := by
  rintro rfl
  exact unclosed (List.prefix_append [byte '*', byte '/'] text).isInfix

/-- The end of a comment is where it was put. -/
theorem Unclosed.comment (unclosed : Unclosed body) :
    Comment more (body ++ [byte '*', byte '/']) := by
  induction body with
  | nil => exact .close
  | cons c body ih =>
      refine .inside ?_ (ih unclosed.tail)
      rintro ⟨rfl, slash⟩
      cases body with
      | nil => cases slash
      | cons d body => exact unclosed.pair (Option.some.inj slash)

theorem Unclosed.opened (unclosed : Unclosed body) (first : body.head? ≠ some (byte '/')) :
    Comment more (byte '/' :: byte '*' :: (body ++ [byte '*', byte '/'])) := by
  refine .inside (fun both => absurd both.1 (by decide)) (.inside ?_ unclosed.comment)
  rintro ⟨-, slash⟩
  cases body with
  | nil => cases slash
  | cons c body => exact first slash

/-- Behind a slash at its start, which closes the comment at once, another comment
starts. -/
def Reopened (body : List UInt8) : Prop :=
  ∀ rest, body = byte '/' :: rest →
    [byte '/', byte '*'] <+: rest.dropWhile isspace ++ [byte '*']

def commented (body : List UInt8) : List UInt8 :=
  byte ' ' :: byte '/' :: byte '*' :: (body ++ [byte '*', byte '/', byte ' '])

theorem Unclosed.reopened (unclosed : Unclosed body)
    (opens : [byte '/', byte '*'] <+: body ++ [byte '*']) :
    ∃ inner, body ++ [byte '*', byte '/'] = byte '/' :: byte '*' :: inner ∧
      Comment more (byte '/' :: byte '*' :: inner) := by
  obtain ⟨behind, same⟩ := opens
  cases body with
  | nil => cases same
  | cons c body =>
      obtain ⟨rfl, later⟩ := List.cons.inj same
      cases body with
      | nil => exact ⟨_, rfl, .inside (fun both => absurd both.1 (by decide)) .close⟩
      | cons d body =>
          obtain ⟨rfl, -⟩ := List.cons.inj later
          refine ⟨_, rfl, unclosed.tail.tail.opened ?_⟩
          intro first
          obtain ⟨body, rfl⟩ := List.head?_eq_some_iff.mp first
          exact unclosed.tail.pair rfl

private theorem dropWhile_first {c : UInt8} {rest : List UInt8} (same : text.dropWhile isspace = c :: rest) :
    isspace c = false := by
  have stops := List.head_dropWhile_not isspace (l := text) (by rw [same]; exact List.cons_ne_nil _ _)
  simpa [same] using stops

private theorem commented_lexes (unclosed : Unclosed body) (reopened : Reopened body)
    (lexes : Lexes strings more out) : Lexes strings (commented body ++ more) out := by
  have blank : isspace (byte ' ') = true := rfl
  have ended : Lexes strings (byte ' ' :: more) out := .space blank lexes
  by_cases slash : body.head? = some (byte '/')
  · obtain ⟨rest, rfl⟩ := List.head?_eq_some_iff.mp slash
    have parts : rest.takeWhile isspace ++ rest.dropWhile isspace = rest :=
      List.takeWhile_append_dropWhile
    have unclosed' : Unclosed (rest.dropWhile isspace) :=
      fun pair => unclosed.tail (pair.trans (List.dropWhile_suffix isspace).isInfix)
    obtain ⟨inner, same, comment⟩ := unclosed'.reopened (reopened rest rfl)
    have second := Lexes.comment comment ended
    rw [← same] at second
    have blanks : ∀ c ∈ rest.takeWhile isspace, isspace c = true :=
      fun c member => List.mem_takeWhile_imp member
    have spaced := second.spaces blanks
    have first := Lexes.comment
      (.inside (fun both => absurd both.1 (by decide)) .close : Comment _ [byte '/', byte '*', byte '/'])
      spaced
    have behind : rest.takeWhile isspace ++
        (rest.dropWhile isspace ++ [byte '*', byte '/'] ++ byte ' ' :: more) =
        rest ++ (byte '*' :: byte '/' :: byte ' ' :: more) := by
      rw [List.append_assoc, ← List.append_assoc, parts]
      rfl
    rw [behind] at first
    refine .space blank ?_
    simpa using first
  · have first := Lexes.comment (unclosed.opened slash) ended
    refine .space blank ?_
    simpa using first

theorem Lexes.first_token {c : UInt8} {rest : List UInt8} (lexes : Lexes strings (c :: rest) out)
    (nothing : out = some []) (space : isspace c = false) :
    c = byte '/' ∧ rest.head? = some (byte '*') := by
  generalize whole : c :: rest = text at lexes
  cases lexes with
  | nil => cases whole
  | stop => cases nothing
  | @piece _ piece _ _ taken _ =>
      obtain ⟨later, -, none_read⟩ := Option.map_eq_some_iff.mp nothing
      have unread := (List.append_eq_nil_iff.mp none_read).1
      cases taken with
      | space blank =>
          obtain ⟨rfl, -⟩ := List.cons.inj whole
          cases space.symm.trans blank
      | comment _ =>
          obtain ⟨rfl, rfl⟩ := List.cons.inj whole
          exact ⟨rfl, rfl⟩
      | word | number | character | string | single | double => cases unread

end Body

/-- A comment body without the pair is read as a blank everywhere if it does not
close its comment at the start, or opens another one there. -/
theorem comment_blank_iff (body : List UInt8) (unclosed : Unclosed body) :
    (∀ front back, Boundary front back →
      lexMeanings (front ++ commented body ++ back) = lexMeanings (front ++ byte ' ' :: back)) ↔
    Reopened body := by
  constructor
  · intro same rest closes
    subst closes
    by_contra other
    have boundary : Boundary [] [] := ⟨[], 0, .done⟩
    have blank : lexMeanings [byte ' '] = some [] := by decide
    have nothing : lexMeanings (commented (byte '/' :: rest)) = some [] := by
      simpa [blank] using same [] [] boundary
    have parts : rest.takeWhile isspace ++ rest.dropWhile isspace = rest :=
      List.takeWhile_append_dropWhile
    have blanks : ∀ c ∈ rest.takeWhile isspace, isspace c = true :=
      fun c member => List.mem_takeWhile_imp member
    obtain ⟨out, lexes⟩ := Lexes.total 0 (rest.dropWhile isspace ++ [byte '*', byte '/', byte ' '])
    have closed : Comment (rest ++ [byte '*', byte '/', byte ' ']) [byte '/', byte '*', byte '/'] :=
      .inside (fun both => absurd both.1 (by decide)) .close
    have spaced := lexes.spaces blanks
    rw [← List.append_assoc, parts] at spaced
    have read := Lexes.comment closed spaced
    have whole : Lexes 0 (commented (byte '/' :: rest)) out := .space rfl (by simpa using read)
    have unread : out = some [] := (lexMeanings_eq whole).symm.trans nothing
    cases first : rest.dropWhile isspace with
    | nil =>
        rw [first] at lexes
        exact absurd (lexes.first_token unread (by decide)).1 (by decide)
    | cons c later =>
        rw [first] at lexes other
        obtain ⟨rfl, star⟩ := lexes.first_token unread (dropWhile_first first)
        apply other
        cases later with
        | nil => exact List.prefix_rfl
        | cons d later =>
            obtain rfl := Option.some.inj star
            exact List.prefix_append [byte '/', byte '*'] (later ++ [byte '*'])
  · rintro reopened front back ⟨meanings, last, reaches⟩
    obtain ⟨out, lexes⟩ := Lexes.total last back
    have long := reaches.lexes (commented_lexes unclosed reopened lexes)
    have short := reaches.lexes (.space rfl lexes)
    rw [lexMeanings_eq short, List.append_assoc]
    exact lexMeanings_eq long

/-- The body `a*b/`. -/
theorem comment_blank_iff_plain :
    (∀ front back, Boundary front back →
      lexMeanings (front ++ commented ([97, 42, 98, 47]) ++ back) =
        lexMeanings (front ++ byte ' ' :: back)) ↔ Reopened [97, 42, 98, 47] :=
  comment_blank_iff [97, 42, 98, 47] (by unfold Unclosed; decide)

/-- A comment whose body is a slash ends before its second star. -/
theorem comment_slash :
    Unclosed [byte '/'] ∧ Boundary [] [] ∧
      lexMeanings ([] ++ commented [byte '/'] ++ []) = some [⟨.mul, none, 0⟩, ⟨.dev, none, 0⟩] ∧
      lexMeanings ([] ++ byte ' ' :: []) = some [] :=
  ⟨by unfold Unclosed; decide, ⟨[], 0, .done⟩, by decide, by decide⟩

end Trident
