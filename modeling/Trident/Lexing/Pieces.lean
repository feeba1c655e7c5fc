import Trident.Lexing.Scanners

/-! A run of the lexer cuts the buffer into pieces: white space, comments and the
spellings of tokens. -/

set_option autoImplicit false

namespace Trident

open Foundation

/-! What a piece of the text is, without the lexer. -/

/-- The kind of an operator that starts with `c`, and the number of bytes that the
`switch` consumes already; `d` is the byte behind `c`. -/
def operatorAt (c d : UInt8) : TokenKind × Nat :=
  if c = byte '+' then pair '+' .add .inc
  else if c = byte '-' then pair '-' .sub .dec
  else if c = byte '!' then pair '=' .not .notEqual
  else if c = byte '=' then pair '=' .assign .equal
  else if c = byte '<' then
    if d = byte '=' then (.lesserEqual, 1) else pair '<' .lesser .bitshiftL
  else if c = byte '>' then
    if d = byte '=' then (.greaterEqual, 1) else pair '>' .greater .bitshiftR
  else (singleKind c, 0)
where
  pair (second : Char) (one two : TokenKind) : TokenKind × Nat :=
    if d = byte second then (two, 1) else (one, 0)

/-- The value of an integer constant. -/
def numberValue (text : Name) : Nat :=
  if text.head? = some (byte '0') ∧ (text[1]? = some (byte 'b') ∨ text[1]? = some (byte 'B')) then
    strtoull (text.drop 2) 2
  else strtoull text 0

/-- The bytes that `get_digit` takes. -/
def numberText : List UInt8 → List UInt8
  | [] => []
  | c :: rest =>
      if c = byte '0' then
        match rest with
        | [] => [c]
        | d :: more =>
            if d = byte 'x' ∨ d = byte 'X' then c :: d :: more.takeWhile isxdigit
            else if d = byte 'b' ∨ d = byte 'B' then
              c :: d :: more.takeWhile fun e => e == byte '0' || e == byte '1'
            else c :: rest.takeWhile isdigit
      else (c :: rest).takeWhile isdigit

/-- `text` is a spelling of the token, when `strings` literals came before. -/
inductive Spells (strings : Nat) : Token → List UInt8 → Prop where
  | word {c text position} : (isalpha c || c == byte '_') = true → (∀ d ∈ text, isWordByte d) →
      Spells strings
        ⟨(getKeywordKind (c :: text)).getD .identifier, some (c :: text), 0, position⟩ (c :: text)
  | number {c text position} : isdigit c = true →
      Spells strings ⟨.int, some (c :: text), numberValue (c :: text), position⟩ (c :: text)
  | character {text decoded position} : Body (byte '\'') text → decodeBody text = some decoded →
      Spells strings ⟨.int, some decoded, charToSize (decoded.head?.getD 0), position⟩
        (byte '\'' :: (text ++ [byte '\'']))
  | string {text decoded position} : Body (byte '"') text → decodeBody text = some decoded →
      Spells strings ⟨.string, some decoded, strings + 1, position⟩
        (byte '"' :: (text ++ [byte '"']))
  | single {c d position} : (operatorAt c d).2 = 0 →
      Spells strings ⟨(operatorAt c d).1, none, 0, position⟩ [c]
  | double {c d position} : (operatorAt c d).2 = 1 →
      Spells strings ⟨(operatorAt c d).1, none, 0, position⟩ [c, d]

structure Piece where
  text : List UInt8
  token : Option Token

/-- The bytes of a comment, when `more` is behind it. A comment that is not closed
goes on to the end of the buffer. -/
inductive Comment (more : List UInt8) : List UInt8 → Prop where
  | close : Comment more [byte '*', byte '/']
  | unterminated : more = [] → Comment more []
  | inside {c text} : ¬ (c = byte '*' ∧ text.head? = some (byte '/')) →
      Comment more text → Comment more (c :: text)

inductive Piece.Valid (strings : Nat) (more : List UInt8) : Piece → Prop where
  | space {c} : isspace c = true → Valid strings more ⟨[c], none⟩
  | comment {text} : Comment more (byte '/' :: byte '*' :: text) →
      Valid strings more ⟨byte '/' :: byte '*' :: text, none⟩
  | token {token text} : Spells strings token text → Valid strings more ⟨text, some token⟩

/-- The first byte of an operator, or a byte that is none. -/
structure StartsOperator (c : UInt8) (rest : List UInt8) : Prop where
  space : isspace c = false
  word : (isalpha c || c == byte '_') = false
  digit : isdigit c = false
  string : c ≠ byte '"'
  character : c ≠ byte '\''
  comment : ¬ (c = byte '/' ∧ rest.headD 0 = byte '*')

/-- The piece that the lexer takes in front of `more`. -/
inductive Piece.Taken (strings : Nat) (more : List UInt8) : Piece → Prop where
  | space {c} : isspace c = true → Taken strings more ⟨[c], none⟩
  | comment {text} : Comment more (byte '/' :: byte '*' :: text) →
      Taken strings more ⟨byte '/' :: byte '*' :: text, none⟩
  | word {c text position} : (isalpha c || c == byte '_') = true → (∀ d ∈ text, isWordByte d) →
      isWordByte (more.headD 0) = false →
      Taken strings more ⟨c :: text,
        some ⟨(getKeywordKind (c :: text)).getD .identifier, some (c :: text), 0, position⟩⟩
  | number {c text position} : isdigit c = true → numberText (c :: text ++ more) = c :: text →
      Taken strings more
        ⟨c :: text, some ⟨.int, some (c :: text), numberValue (c :: text), position⟩⟩
  | character {text decoded position} : Body (byte '\'') text → decodeBody text = some decoded →
      Taken strings more ⟨byte '\'' :: (text ++ [byte '\'']),
        some ⟨.int, some decoded, charToSize (decoded.head?.getD 0), position⟩⟩
  | string {text decoded position} : Body (byte '"') text → decodeBody text = some decoded →
      Taken strings more ⟨byte '"' :: (text ++ [byte '"']),
        some ⟨.string, some decoded, strings + 1, position⟩⟩
  | single {c position} : StartsOperator c more → (operatorAt c (more.headD 0)).2 = 0 →
      Taken strings more ⟨[c], some ⟨(operatorAt c (more.headD 0)).1, none, 0, position⟩⟩
  | double {c d position} : StartsOperator c (d :: more) → (operatorAt c d).2 = 1 →
      Taken strings more ⟨[c, d], some ⟨(operatorAt c d).1, none, 0, position⟩⟩

theorem Piece.Taken.valid {strings : Nat} {more : List UInt8} {piece : Piece}
    (taken : piece.Taken strings more) : piece.Valid strings more := by
  cases taken with
  | space space => exact .space space
  | comment comment => exact .comment comment
  | word first all _ => exact .token (.word first all)
  | number digit _ => exact .token (.number digit)
  | character body decoded => exact .token (.character body decoded)
  | string body decoded => exact .token (.string body decoded)
  | single _ one => exact .token (.single one)
  | double _ two => exact .token (.double two)

theorem Piece.Valid.nonempty {strings : Nat} {more : List UInt8} {piece : Piece}
    (valid : piece.Valid strings more) : piece.text ≠ [] := by
  cases valid with
  | space | comment => exact List.cons_ne_nil _ _
  | token spells => cases spells <;> exact List.cons_ne_nil _ _

/-- The number of literals among a piece. -/
def Piece.strings (piece : Piece) : Nat :=
  if piece.token.any (·.kind = .string) then 1 else 0

theorem Piece.strings_other {token : Token} (other : token.kind ≠ .string) (text : List UInt8)
    (count : Nat) : count = count + Piece.strings ⟨text, some token⟩ := by
  rw [Piece.strings, Option.any_some, decide_eq_false other]
  rfl

theorem keywordKind_ne_string (word : Name) :
    (getKeywordKind word).getD .identifier ≠ .string := by
  cases found : getKeywordKind word with
  | none => exact TokenKind.noConfusion
  | some kind =>
      obtain ⟨keyword, listed, same⟩ := List.exists_of_findSome?_eq_some found
      split at same
      · cases same
        clear found
        clear * - listed
        revert keyword
        decide
      · cases same

/-! How the counters move over a piece, and how a run ends early. -/

/-- White space that the lexer counts as two columns. -/
def isBlank (c : UInt8) : Bool := isspace c && c != byte '\n'

/-- The counters behind a piece. -/
def Piece.counted (piece : Piece) (position : Position) : Position :=
  if piece.text.all isBlank then ⟨position.ln, position.cn + 2⟩ else position.across piece.text

/-- One iteration of the loop of `lexer` has read a piece. -/
structure ReadsPiece (l l' : Lexer) (piece : Piece) (more : List UInt8) : Prop where
  before : l.At (piece.text ++ more)
  buffer : l'.buffer = l.buffer
  i : l'.i = l.i + piece.text.length
  tokens : l'.tokens = l.tokens ++ piece.token.toList
  strings : l'.srtDataC = l.srtDataC + piece.strings
  taken : piece.Taken l.srtDataC more
  located : ∀ token ∈ piece.token, token.position = l.position
  counted : l'.position = piece.counted l.position

theorem ReadsPiece.valid {l l' : Lexer} {piece : Piece} {more : List UInt8}
    (reads : ReadsPiece l l' piece more) : piece.Valid l.srtDataC more := reads.taken.valid

/-- The ways `get_string` ends the run. -/
def Diag.EndsLexer : Diag → Prop
  | .unterminatedLiteral _ | .unterminatedEscape _ | .unknownEscape _ _ => True
  | _ => False

/-- The run has ended with one of those diagnostics. -/
def Lexer.Stopped (l : Lexer) : Prop := ∃ diag, l.stderr.getLast? = some diag ∧ diag.EndsLexer

theorem Lexer.Stopped.reported {l : Lexer} {before : List Diag} {diag : Diag}
    (reported : l.stderr = before ++ [diag]) (ends : diag.EndsLexer) : l.Stopped :=
  ⟨diag, by rw [reported, List.getLast?_concat], ends⟩

theorem Unterminated.stopped {l l' : Lexer} (ended : Unterminated l l') : l'.Stopped := by
  rcases ended with reported | reported
  · exact .reported reported trivial
  · exact .reported reported trivial

/-! Operators and the digits of a number, which `get_digit` reads by the base that the prefix says. -/

section

variable {l : Lexer} {text rest more : List UInt8} {c : UInt8} {fuel : Nat}

private theorem operatorKind_run (at_ : l.At (c :: rest)) :
    operatorKind c l =
      .ok (operatorAt c (rest.headD 0)).1 (l.advance (operatorAt c (rest.headD 0)).2) := by
  have pair : ∀ second one two, operatorKind.pair second one two l =
      .ok (operatorAt.pair (rest.headD 0) second one two).1
        (l.advance (operatorAt.pair (rest.headD 0) second one two).2) := by
    intro second one two
    rw [operatorKind.pair, bind_run_of_ok at_.peak_one, operatorAt.pair]
    split <;> rfl
  unfold operatorKind operatorAt
  split
  · exact pair _ _ _
  split
  · exact pair _ _ _
  split
  · exact pair _ _ _
  split
  · exact pair _ _ _
  split
  · rw [bind_run_of_ok at_.peak_one]
    split
    · rfl
    · exact pair _ _ _
  split
  · rw [bind_run_of_ok at_.peak_one]
    split
    · rfl
    · exact pair _ _ _
  · rfl

private theorem operatorAt_snd (c d : UInt8) : (operatorAt c d).2 = 0 ∨ (operatorAt c d).2 = 1 := by
  have pair : ∀ second one two, (operatorAt.pair d second one two).2 = 0 ∨
      (operatorAt.pair d second one two).2 = 1 := by
    intro second one two
    unfold operatorAt.pair
    split
    · exact .inr rfl
    · exact .inl rfl
  unfold operatorAt
  repeat' split
  all_goals first | exact pair _ _ _ | exact .inl rfl | exact .inr rfl

/-- The digits that are not octal are reported, one by one. -/
private theorem octalDigits_run (at_ : l.At (text ++ more)) (all : ∀ d ∈ text, isdigit d)
    (stops : isdigit (more.headD 0) = false) (enough : text.length < fuel) :
    ∃ reports, octalDigits fuel l =
        .ok () { l.advance text.length with stderr := l.stderr ++ reports } ∧
      (reports = [] ↔ text.all isoctal = true) := by
  induction fuel generalizing l text with
  | zero => cases enough
  | succ fuel ih =>
      rw [octalDigits, bind_run_of_ok at_.peak_zero]
      cases text with
      | nil =>
          rw [List.nil_append, stops]
          exact ⟨[], by simp, by simp⟩
      | cons d text =>
          have passes : isdigit ((d :: text ++ more).headD 0) := all d List.mem_cons_self
          have later : ∀ e ∈ text, isdigit e := fun e member => all e (List.mem_cons_of_mem _ member)
          have step : ∀ first, ∃ reports,
              octalDigits fuel ({ l.advance 1 with stderr := l.stderr ++ first } : Lexer) =
                .ok () { l.advance (d :: text).length with stderr := l.stderr ++ (first ++ reports) } ∧
              (reports = [] ↔ text.all isoctal = true) := by
            intro first
            have rest : ({ l.advance 1 with stderr := l.stderr ++ first } : Lexer).At (text ++ more) :=
              at_.next.of_i (show _ = (l.advance 1).buffer from rfl) rfl
            obtain ⟨reports, run, none_⟩ := ih rest later (Nat.lt_of_succ_lt_succ enough)
            refine ⟨reports, run.trans ?_, none_⟩
            simp [Lexer.advance, Nat.add_assoc, Nat.add_comm 1]
          rw [if_pos passes]
          cases octal : isoctal d with
          | true =>
              obtain ⟨reports, run, none_⟩ := step []
              refine ⟨reports, ?_, by simpa [octal] using none_⟩
              rw [List.cons_append, List.headD_cons, octal, ← List.nil_append reports, ← run]
              simp
              rfl
          | false =>
              obtain ⟨reports, run, -⟩ := step [.invalidOctalDigit ⟨l.ln, l.tCn⟩ d]
              refine ⟨.invalidOctalDigit ⟨l.ln, l.tCn⟩ d :: reports, ?_, by simp [octal]⟩
              rw [List.cons_append, List.headD_cons, octal]
              exact run

private theorem dropWhile_stops {test : UInt8 → Bool} (zero : test 0 = false) (text : List UInt8) :
    test ((text.dropWhile test).headD 0) = false := by
  induction text with
  | nil => exact zero
  | cons c text ih =>
      rw [List.dropWhile_cons]
      split
      · exact ih
      · exact Bool.eq_false_iff.mpr ‹_›

private theorem consumeWhile_takeWhile {test : UInt8 → Bool} (zero : test 0 = false) (at_ : l.At text)
    (enough : text.length < fuel) :
    consumeWhile test fuel l = .ok () (l.advance (text.takeWhile test).length) := by
  have split : l.At (text.takeWhile test ++ text.dropWhile test) := by
    rw [List.takeWhile_append_dropWhile]
    exact at_
  have shorter : (text.takeWhile test).length < fuel :=
    Nat.lt_of_le_of_lt (List.takeWhile_prefix test).length_le enough
  exact consumeWhile_run split (fun c member => List.mem_takeWhile_imp member)
    (dropWhile_stops zero text) shorter

private theorem numberText_prefix (text : List UInt8) : numberText text <+: text := by
  unfold numberText
  repeat' split
  all_goals
    first
    | exact List.prefix_rfl
    | exact List.takeWhile_prefix _
    | simpa using List.takeWhile_prefix _

private theorem numberText_alnum (text : List UInt8) : ∀ c ∈ numberText text, isalnum c = true := by
  have taken : ∀ {test : UInt8 → Bool} (text : List UInt8), (∀ c, test c = true → isalnum c = true) →
      ∀ c ∈ text.takeWhile test, isalnum c = true :=
    fun text within c member => within c (List.mem_takeWhile_imp member)
  have digits : ∀ c, isdigit c = true → isalnum c = true := forall_bytes (by decide +kernel)
  have hexDigits : ∀ c, isxdigit c = true → isalnum c = true := forall_bytes (by decide +kernel)
  have cons : ∀ {c : UInt8} {text : List UInt8}, isalnum c = true → (∀ d ∈ text, isalnum d = true) →
      ∀ d ∈ c :: text, isalnum d = true := fun first later => List.forall_mem_cons.mpr ⟨first, later⟩
  unfold numberText
  split
  · exact List.forall_mem_nil _
  split
  · rename_i zero
    have first := zero ▸ (by decide : isalnum (byte '0') = true)
    split
    · exact cons first (List.forall_mem_nil _)
    split
    · rename_i hex
      refine cons first (cons ?_ (taken _ hexDigits))
      rcases hex with rfl | rfl <;> decide
    split
    · rename_i binary
      refine cons first (cons ?_ (taken _ (forall_bytes (by decide +kernel))))
      rcases binary with rfl | rfl <;> decide
    · exact cons first (taken _ digits)
  · exact taken _ digits

theorem numberText_hex {c d : UInt8} {more : List UInt8} (zero : c = byte '0')
    (hex : d = byte 'x' ∨ d = byte 'X') :
    numberText (c :: d :: more) = c :: d :: more.takeWhile isxdigit := by
  rw [numberText.eq_def]
  exact (if_pos zero).trans (if_pos hex)

theorem numberText_binary {c d : UInt8} {more : List UInt8} (zero : c = byte '0')
    (hex : ¬ (d = byte 'x' ∨ d = byte 'X')) (binary : d = byte 'b' ∨ d = byte 'B') :
    numberText (c :: d :: more) =
      c :: d :: more.takeWhile fun e => e == byte '0' || e == byte '1' := by
  rw [numberText.eq_def]
  exact (if_pos zero).trans ((if_neg hex).trans (if_pos binary))

theorem numberText_octal {c : UInt8} {rest : List UInt8} (zero : c = byte '0')
    (hex : ¬ (rest.headD 0 = byte 'x' ∨ rest.headD 0 = byte 'X'))
    (binary : ¬ (rest.headD 0 = byte 'b' ∨ rest.headD 0 = byte 'B')) :
    numberText (c :: rest) = c :: rest.takeWhile isdigit := by
  rw [numberText.eq_def]
  refine (if_pos zero).trans ?_
  cases rest with
  | nil => rfl
  | cons d more => exact (if_neg hex).trans (if_neg binary)

theorem numberText_decimal {c : UInt8} {rest : List UInt8} (zero : c ≠ byte '0') :
    numberText (c :: rest) = (c :: rest).takeWhile isdigit := by
  rw [numberText.eq_def]
  exact if_neg zero

/-- The letters that stand for a base. -/
def isBaseMark (c : UInt8) : Bool := c ∈ [byte 'x', byte 'X', byte 'b', byte 'B']

/-- An octal constant with a digit that is not octal. -/
def badOctal : List UInt8 → Bool
  | [] => false
  | c :: rest => c == byte '0' && !isBaseMark (rest.headD 0) && !rest.all isoctal

theorem badOctal_marked {d : UInt8} (mark : isBaseMark d = true) (c : UInt8) (more : List UInt8) :
    badOctal (c :: d :: more) = false := by
  simp [badOctal, mark]

theorem isBaseMark_of_isdigit {d : UInt8} (digit : isdigit d = true) : isBaseMark d = false := by
  apply decide_eq_false
  simp only [List.mem_cons, List.not_mem_nil, or_false, not_or]
  refine ⟨?_, ?_, ?_, ?_⟩
  all_goals
    rintro rfl
    exact absurd digit (by decide)

theorem badOctal_plain {c : UInt8} {rest : List UInt8} (zero : c = byte '0')
    (all : ∀ d ∈ rest, isdigit d) : badOctal (c :: rest) = !rest.all isoctal := by
  have unmarked : isBaseMark (rest.headD 0) = false := by
    cases rest with
    | nil => rfl
    | cons d rest => exact isBaseMark_of_isdigit (all d List.mem_cons_self)
  rw [badOctal, unmarked, zero]
  simp

theorem badOctal_decimal {c : UInt8} {rest : List UInt8} (zero : c ≠ byte '0') :
    badOctal (c :: rest) = false := by
  simp [badOctal, zero]

/-- An invalid octal digit is reported, and taken. -/
private theorem getDigit_run (at_ : l.At (c :: rest)) (digit : isdigit c = true)
    (enough : rest.length + 1 < fuel) :
    ∃ reports, getDigit fuel l = .ok (numberText (c :: rest))
        { l.advance (numberText (c :: rest)).length with stderr := l.stderr ++ reports } ∧
      (reports = [] ↔ badOctal (numberText (c :: rest)) = false) := by
  obtain ⟨behind, whole⟩ := numberText_prefix (c :: rest)
  -- The loops differ, the copying is the same.
  have finish : ∀ {taken} count reports, numberText (c :: rest) = taken → count = taken.length →
      (reports = [] ↔ badOctal taken = false) →
      ∃ reports', (do substr l.i (← get).i : LexM Name)
          { l.advance count with stderr := l.stderr ++ reports } =
        .ok (numberText (c :: rest))
          { l.advance (numberText (c :: rest)).length with stderr := l.stderr ++ reports' } ∧
        (reports' = [] ↔ badOctal (numberText (c :: rest)) = false) := by
    rintro taken count reports rfl rfl none_
    exact ⟨reports, substr_run (whole ▸ at_) (ne_of_test rfl (numberText_alnum _)) rfl rfl, none_⟩
  have quiet : ∀ count, l.advance count = { l.advance count with stderr := l.stderr ++ [] } := by
    intro count
    rw [List.append_nil]
    rfl
  have shorter : rest.length < fuel := Nat.lt_of_succ_lt enough
  rw [getDigit, bind_run_of_ok (get_run _), bind_run_of_ok at_.peak_zero, List.headD_cons]
  by_cases zero : c = byte '0'
  · rw [if_pos zero, bind_run_of_ok at_.peak_one, bind_run_of_ok (consume_run _)]
    by_cases hex : rest.headD 0 = byte 'x' ∨ rest.headD 0 = byte 'X'
    · cases rest with
      | nil => exact absurd hex (by decide)
      | cons d more =>
          rw [if_pos hex, bind_run_of_ok (consume_run _),
            bind_run_of_ok (consumeWhile_takeWhile rfl at_.next.next (Nat.lt_of_succ_lt shorter)),
            Lexer.advance_advance, Lexer.advance_advance, quiet]
          have mark : isBaseMark d = true := by
            rcases hex with rfl | rfl <;> rfl
          exact finish _ [] (numberText_hex zero hex) (by simp only [List.length_cons]; omega)
            (by simp [badOctal_marked mark])
    rw [if_neg hex]
    by_cases binary : rest.headD 0 = byte 'b' ∨ rest.headD 0 = byte 'B'
    · cases rest with
      | nil => exact absurd binary (by decide)
      | cons d more =>
          rw [if_pos binary, bind_run_of_ok (consume_run _),
            bind_run_of_ok (consumeWhile_takeWhile rfl at_.next.next (Nat.lt_of_succ_lt shorter)),
            Lexer.advance_advance, Lexer.advance_advance, quiet]
          have mark : isBaseMark d = true := by
            rcases binary with rfl | rfl <;> rfl
          exact finish _ [] (numberText_binary zero hex binary)
            (by simp only [List.length_cons]; omega) (by simp [badOctal_marked mark])
    · have split : (l.advance 1).At (rest.takeWhile isdigit ++ rest.dropWhile isdigit) := by
        rw [List.takeWhile_append_dropWhile]
        exact at_.next
      have fewer : (rest.takeWhile isdigit).length < fuel :=
        Nat.lt_of_le_of_lt (List.takeWhile_prefix _).length_le shorter
      have digits : ∀ d ∈ rest.takeWhile isdigit, isdigit d :=
        fun d member => List.mem_takeWhile_imp member
      obtain ⟨reports, run, none_⟩ := octalDigits_run split digits (dropWhile_stops rfl rest) fewer
      rw [if_neg binary, bind_run_of_ok run, Lexer.advance_advance]
      exact finish _ reports (numberText_octal zero hex binary) (by rw [Nat.add_comm]; rfl)
        (by rw [none_, badOctal_plain zero digits]; simp)
  · rw [if_neg zero, bind_run_of_ok (consumeWhile_takeWhile rfl at_ enough), quiet]
    refine finish _ [] (numberText_decimal zero) rfl ?_
    rw [List.takeWhile_cons_of_pos digit, badOctal_decimal zero]
    simp

/-! Comments, and the first bytes of the other pieces. -/

private theorem skipComment_run (at_ : l.At text) (enough : text.length < fuel) :
    ∃ comment more, text = comment ++ more ∧ Comment more comment ∧
      skipComment fuel l = .ok () (l.past comment) := by
  induction fuel generalizing l text with
  | zero => cases enough
  | succ fuel ih =>
      rw [skipComment, bind_run_of_ok (get_run _), bind_run_of_ok (get_run _)]
      cases text with
      | nil =>
          have ended : ¬ l.i < l.bufLen := by
            have none_left := congrArg List.length at_.rest
            rw [List.length_drop] at none_left
            exact Nat.not_lt.mpr (Nat.sub_eq_zero_iff_le.mp none_left)
          rw [if_neg ended]
          exact ⟨[], [], rfl, .unterminated rfl, rfl⟩
      | cons c rest =>
          have inside : l.i < l.bufLen := lt_length_of_drop at_.rest
          rw [if_pos inside, bind_run_of_ok at_.peak_zero, bind_run_of_ok at_.peak_one,
            List.headD_cons]
          by_cases closes : c = byte '*' ∧ rest.headD 0 = byte '/'
          · rw [if_pos closes]
            obtain ⟨rfl, second⟩ := closes
            cases rest with
            | nil => exact absurd second (by decide)
            | cons d rest =>
                obtain rfl : d = byte '/' := second
                exact ⟨[byte '*', byte '/'], rest, rfl, .close, rfl⟩
          · have open_ : ∀ {comment more}, rest = comment ++ more → Comment more comment →
                ¬ (c = byte '*' ∧ comment.head? = some (byte '/')) := by
              rintro comment more rfl _ ⟨first, second⟩
              cases comment with
              | nil => cases second
              | cons d comment => exact closes ⟨first, Option.some.inj second⟩
            have next : (l.past [c]).At rest :=
              at_.next.of_i (show _ = (l.advance 1).buffer from rfl) rfl
            obtain ⟨comment, more, same, valid, run⟩ := ih next (Nat.lt_of_succ_lt_succ enough)
            have behind : (l.past [c]).past comment = l.past (c :: comment) := by
              simp only [Lexer.past, List.length_cons, List.length_nil, Lexer.mk.injEq, true_and,
                and_true]
              exact ⟨by omega, rfl, rfl⟩
            refine ⟨c :: comment, more, by rw [same]; rfl, .inside (open_ same valid) valid, ?_⟩
            rw [if_neg closes, bind_run_of_ok at_.peak_zero, List.headD_cons, ← behind, ← run]
            have counted : ∀ {ln cn}, l.position.next c = ⟨ln, cn⟩ →
                ({ l with i := l.i + 1, ln, cn } : Lexer) = l.past [c] := by
              intro ln cn same
              simp only [Lexer.past, Position.across, List.foldl, same, List.length_cons, List.length_nil]
            split
            · rename_i newline
              exact congrArg (skipComment fuel) (counted (if_pos newline))
            · rename_i other
              exact congrArg (skipComment fuel) (counted (if_neg other))

private theorem numberText_cons (digit : isdigit c = true) (rest : List UInt8) :
    ∃ text, numberText (c :: rest) = c :: text := by
  by_cases zero : c = byte '0'
  · by_cases hex : rest.headD 0 = byte 'x' ∨ rest.headD 0 = byte 'X'
    · cases rest with
      | nil => exact absurd hex (by decide)
      | cons d more => exact ⟨_, numberText_hex zero hex⟩
    by_cases binary : rest.headD 0 = byte 'b' ∨ rest.headD 0 = byte 'B'
    · cases rest with
      | nil => exact absurd binary (by decide)
      | cons d more => exact ⟨_, numberText_binary zero hex binary⟩
    · exact ⟨_, numberText_octal zero hex binary⟩
  · refine ⟨rest.takeWhile isdigit, ?_⟩
    rw [numberText_decimal zero, List.takeWhile_cons_of_pos digit]

/-- The next iteration of the loop reads `piece`. -/
def NextPiece (fuel : Nat) (l : Lexer) (piece : Piece) (more : List UInt8) : Prop :=
  ∃ l', lexToken fuel l = .ok () l' ∧ ReadsPiece l l' piece more

/-- The state in which the scanners start. -/
def Lexer.mark (l : Lexer) : Lexer := { l with tCn := l.cn }

private theorem mark_run (l : Lexer) :
    (modify fun l => { l with tCn := l.cn } : LexM Unit) l = .ok () l.mark := rfl

theorem Lexer.At.mark (at_ : l.At text) : l.mark.At text := at_.of_i rfl rfl

theorem isWordByte_first (first : (isalpha c || c == byte '_') = true) : isWordByte c = true := by
  unfold isWordByte isalnum
  revert first
  cases isalpha c <;> simp +contextual

theorem isspace_of_isWordByte : ∀ c, isWordByte c = true → isspace c = false :=
  forall_bytes (by decide +kernel)

private theorem isWordByte_of_isalnum (word : isalnum c = true) : isWordByte c = true := by
  rw [isWordByte, word, Bool.true_or]

/-- The bytes that can end an operator of two bytes. -/
theorem operatorAt_second {d : UInt8} (two : (operatorAt c d).2 = 1) :
    d ∈ [byte '+', byte '-', byte '=', byte '<', byte '>'] := by
  have pair : ∀ {second one other}, (operatorAt.pair d second one other).2 = 1 → d = byte second := by
    intro second one other
    unfold operatorAt.pair
    split
    · exact fun _ => ‹d = byte second›
    · nofun
  unfold operatorAt at two
  repeat' split at two
  all_goals first | simp [pair two] | simp_all

namespace Piece.Taken

variable {strings : Nat} {token : Token}

theorem word_bytes (taken : numberText (c :: text ++ more) = c :: text) :
    ∀ d ∈ c :: text, isWordByte d = true := by
  rw [← taken]
  exact fun d member => isWordByte_of_isalnum (numberText_alnum _ d member)

/-- A token does not start with white space. -/
theorem first_byte (taken : Piece.Taken strings more ⟨text, some token⟩) :
    ∃ c rest, text = c :: rest ∧ isspace c = false := by
  cases taken with
  | word first _ _ => exact ⟨_, _, rfl, isspace_of_isWordByte _ (isWordByte_first first)⟩
  | number _ taken =>
      exact ⟨_, _, rfl, isspace_of_isWordByte _ (word_bytes taken _ List.mem_cons_self)⟩
  | character | string => exact ⟨_, _, rfl, by decide⟩
  | single starts _ => exact ⟨_, _, rfl, starts.space⟩
  | double starts _ => exact ⟨_, _, rfl, starts.space⟩

/-- A token stays on its line. -/
theorem line (taken : Piece.Taken strings more ⟨text, some token⟩) : ∀ c ∈ text, c ≠ byte '\n' := by
  have body : ∀ {q text}, q ≠ byte '\n' → Body q text → ∀ c ∈ q :: (text ++ [q]), c ≠ byte '\n' := by
    intro q text quote body
    refine List.forall_mem_cons.mpr ⟨quote, List.forall_mem_append.mpr ⟨?_, ?_⟩⟩
    · exact fun c member => (body.bytes c member).2
    · exact List.forall_mem_singleton.mpr quote
  have unspaced : ∀ {c}, isspace c = false → c ≠ byte '\n' := by
    rintro c space rfl
    cases space
  cases taken with
  | word first all _ =>
      exact ne_of_test rfl (List.forall_mem_cons.mpr ⟨isWordByte_first first, all⟩)
  | number _ taken => exact ne_of_test rfl (word_bytes taken)
  | character spelled _ => exact body (by decide) spelled
  | string spelled _ => exact body (by decide) spelled
  | single starts _ => exact List.forall_mem_singleton.mpr (unspaced starts.space)
  | double starts two =>
      have second : ∀ d ∈ [byte '+', byte '-', byte '=', byte '<', byte '>'], d ≠ byte '\n' := by decide +kernel
      refine List.forall_mem_cons.mpr ⟨unspaced starts.space, List.forall_mem_singleton.mpr ?_⟩
      exact second _ (operatorAt_second two)

end Piece.Taken

/-! One iteration of the loop for each kind of piece. -/

/-- A token was read and the counters are behind it. -/
theorem ReadsPiece.token {token : Token} {stderr : List Diag} {srtDataC : Nat}
    (before : l.At (text ++ more)) (taken : Piece.Taken l.srtDataC more ⟨text, some token⟩)
    (strings : srtDataC = l.srtDataC + Piece.strings ⟨text, some token⟩)
    (located : token.position = l.position) :
    ReadsPiece l
      { l.mark.advance text.length with tokens := l.tokens ++ [token], stderr, srtDataC }
      ⟨text, some token⟩ more where
  before := before
  buffer := rfl
  i := rfl
  tokens := rfl
  strings := strings
  taken := taken
  located := by
    rintro _ ⟨⟩
    exact located
  counted := by
    obtain ⟨c, rest, rfl, space⟩ := taken.first_byte
    rw [Piece.counted, List.all_cons, isBlank, space, Bool.false_and, Bool.false_and,
      if_neg Bool.false_ne_true, Position.across_line taken.line]
    rfl

theorem lexToken_space (at_ : l.At (c :: rest)) (space : isspace c = true) :
    NextPiece fuel l ⟨[c], none⟩ rest := by
  unfold NextPiece
  rw [lexToken, bind_run_of_ok at_.peak_zero, bind_run_of_ok (mark_run _), List.headD_cons,
    if_pos space]
  have counted : Piece.counted ⟨[c], none⟩ l.position =
      if c = byte '\n' then ⟨l.ln + 1, 1⟩ else ⟨l.ln, l.cn + 2⟩ := by
    by_cases newline : c = byte '\n'
    · subst newline
      rfl
    · rw [if_neg newline]
      simp [Piece.counted, isBlank, space, newline, Lexer.position]
  split
  · rename_i newline
    rw [if_pos newline] at counted
    exact ⟨_, rfl, at_, rfl, rfl, (List.append_nil _).symm, rfl, .space space, nofun, counted.symm⟩
  · rename_i other
    rw [if_neg other] at counted
    exact ⟨_, rfl, at_, rfl, rfl, (List.append_nil _).symm, rfl, .space space, nofun, counted.symm⟩

theorem lexToken_word (at_ : l.At (c :: text ++ more)) (space : isspace c = false)
    (first : (isalpha c || c == byte '_') = true) (all : ∀ d ∈ text, isWordByte d)
    (stops : isWordByte (more.headD 0) = false) (enough : text.length + 1 < fuel) :
    ∃ position, NextPiece fuel l ⟨c :: text,
      some ⟨(getKeywordKind (c :: text)).getD .identifier, some (c :: text), 0, position⟩⟩ more := by
  have word : ∀ d ∈ c :: text, isWordByte d :=
    List.forall_mem_cons.mpr ⟨isWordByte_first first, all⟩
  have scanned := getWord_run (l := l.mark) at_.mark word stops enough
  unfold NextPiece
  rw [lexToken, bind_run_of_ok at_.peak_zero, bind_run_of_ok (mark_run _), List.cons_append,
    List.headD_cons, space, if_neg Bool.false_ne_true, if_pos first]
  refine ⟨⟨l.ln, l.cn⟩, _, bind_run_of_ok scanned, ?_⟩
  exact .token at_ (.word first all stops) (Piece.strings_other (keywordKind_ne_string _) _ _) rfl

/-- A number is read by `get_digit`, and reported as far as its octal digits are wrong. -/
theorem lexToken_digits (at_ : l.At (c :: rest)) (space : isspace c = false)
    (first : (isalpha c || c == byte '_') = false) (digit : isdigit c = true)
    (enough : rest.length + 1 < fuel) :
    ∃ reports, lexToken fuel l = .ok ()
        { l.mark.advance (numberText (c :: rest)).length with
          stderr := l.stderr ++ reports
          tokens := l.tokens ++ [⟨.int, some (numberText (c :: rest)),
            numberValue (numberText (c :: rest)), ⟨l.ln, l.cn⟩⟩] } ∧
      (reports = [] ↔ badOctal (numberText (c :: rest)) = false) := by
  obtain ⟨reports, scanned, none_⟩ := getDigit_run (l := l.mark) at_.mark digit enough
  refine ⟨reports, ?_, none_⟩
  rw [lexToken, bind_run_of_ok at_.peak_zero, bind_run_of_ok (mark_run _),
    List.headD_cons, space, if_neg Bool.false_ne_true, first, if_neg Bool.false_ne_true,
    if_pos digit, bind_run_of_ok scanned, numberValue]
  split <;> rfl

theorem lexToken_number (at_ : l.At (c :: rest)) (space : isspace c = false)
    (first : (isalpha c || c == byte '_') = false) (digit : isdigit c = true)
    (enough : rest.length + 1 < fuel) :
    ∃ position more, numberText (c :: rest) ++ more = c :: rest ∧
      NextPiece fuel l ⟨numberText (c :: rest),
        some ⟨.int, some (numberText (c :: rest)), numberValue (numberText (c :: rest)), position⟩⟩
        more := by
  obtain ⟨reports, run, -⟩ := lexToken_digits at_ space first digit enough
  obtain ⟨more, whole⟩ := numberText_prefix (c :: rest)
  obtain ⟨text, same⟩ := numberText_cons digit rest
  have taken : Piece.Taken l.srtDataC more ⟨numberText (c :: rest), some ⟨.int,
      some (numberText (c :: rest)), numberValue (numberText (c :: rest)), ⟨l.ln, l.cn⟩⟩⟩ := by
    rw [same] at whole ⊢
    exact .number digit ((congrArg numberText whole).trans same)
  have before : l.At (numberText (c :: rest) ++ more) := by
    rw [whole]
    exact at_
  exact ⟨⟨l.ln, l.cn⟩, more, whole, _, run, .token before taken rfl rfl⟩

private theorem isQuote_literal {q : UInt8} (literal : q = byte '"' ∨ q = byte '\'') : IsQuote q := by
  rcases literal with rfl | rfl <;> exact ⟨by decide, by decide⟩

/-- At a quote the text is handed to `get_string`. -/
private theorem lexToken_quote {q : UInt8} (fuel : Nat) (literal : q = byte '"' ∨ q = byte '\'')
    (at_ : l.At (q :: text)) :
    ∃ store : Name → LexM Unit, lexToken fuel l = (getString fuel q >>= store) l.mark := by
  rw [lexToken, bind_run_of_ok at_.peak_zero, bind_run_of_ok (mark_run _), List.headD_cons]
  rcases literal with rfl | rfl
  · rw [if_neg (by decide), if_neg (by decide), if_neg (by decide), if_pos rfl]
    exact ⟨_, rfl⟩
  · rw [if_neg (by decide), if_neg (by decide), if_neg (by decide), if_neg (by decide), if_pos rfl]
    exact ⟨_, rfl⟩

/-- A literal with an unknown escape. -/
private theorem lexToken_undecoded {q : UInt8} (literal : q = byte '"' ∨ q = byte '\'') (body : Body q text)
    (at_ : l.At (q :: (text ++ q :: more))) (enough : text.length + 1 < fuel)
    (unknown : decodeBody text = none) : ∃ l', lexToken fuel l = .error .exit l' ∧ l'.Stopped := by
  obtain ⟨l', got, rejected, reported⟩ :=
    (getString_run (l := l.mark) (isQuote_literal literal) body at_.mark enough).2 unknown
  obtain ⟨store, run⟩ := lexToken_quote fuel literal at_
  exact ⟨l', run.trans (bind_run_of_error rejected), .reported reported trivial⟩

theorem lexToken_string (body : Body (byte '"') text)
    (at_ : l.At (byte '"' :: (text ++ byte '"' :: more))) (enough : text.length + 1 < fuel) :
    (∀ decoded, decodeBody text = some decoded → ∃ position,
      NextPiece fuel l ⟨byte '"' :: (text ++ [byte '"']),
        some ⟨.string, some decoded, l.srtDataC + 1, position⟩⟩ more) ∧
    (decodeBody text = none → ∃ l', lexToken fuel l = .error .exit l' ∧ l'.Stopped) := by
  refine ⟨fun decoded same => ?_, lexToken_undecoded (.inl rfl) body at_ enough⟩
  obtain ⟨stderr, scanned, -⟩ :=
    (getString_run (l := l.mark) (isQuote_literal (.inl rfl)) body at_.mark enough).1 decoded same
  have before : l.At (byte '"' :: (text ++ [byte '"']) ++ more) := by
    rw [List.cons_append, List.append_assoc]
    exact at_
  have length : text.length + 2 = (byte '"' :: (text ++ [byte '"'])).length := by simp
  rw [length] at scanned
  unfold NextPiece
  rw [lexToken, bind_run_of_ok at_.peak_zero, bind_run_of_ok (mark_run _), List.headD_cons,
    if_neg (by decide), if_neg (by decide), if_neg (by decide), if_pos rfl,
    bind_run_of_ok scanned]
  exact ⟨⟨l.ln, l.cn⟩, _, rfl, .token before (.string body same) rfl rfl⟩

theorem lexToken_character (body : Body (byte '\'') text)
    (at_ : l.At (byte '\'' :: (text ++ byte '\'' :: more))) (enough : text.length + 1 < fuel) :
    (∀ decoded, decodeBody text = some decoded → ∃ position,
      NextPiece fuel l ⟨byte '\'' :: (text ++ [byte '\'']),
        some ⟨.int, some decoded, charToSize (decoded.head?.getD 0), position⟩⟩ more) ∧
    (decodeBody text = none → ∃ l', lexToken fuel l = .error .exit l' ∧ l'.Stopped) := by
  refine ⟨fun decoded same => ?_, lexToken_undecoded (.inr rfl) body at_ enough⟩
  obtain ⟨stderr, scanned, -⟩ :=
    (getString_run (l := l.mark) (isQuote_literal (.inr rfl)) body at_.mark enough).1 decoded same
  have before : l.At (byte '\'' :: (text ++ [byte '\'']) ++ more) := by
    rw [List.cons_append, List.append_assoc]
    exact at_
  have length : text.length + 2 = (byte '\'' :: (text ++ [byte '\''])).length := by simp
  rw [length] at scanned
  unfold NextPiece
  rw [lexToken, bind_run_of_ok at_.peak_zero, bind_run_of_ok (mark_run _), List.headD_cons,
    if_neg (by decide), if_neg (by decide), if_neg (by decide), if_neg (by decide), if_pos rfl,
    bind_run_of_ok scanned]
  exact ⟨⟨l.ln, l.cn⟩, _, rfl, .token before (.character body same) rfl rfl⟩

/-- A literal that is not closed. -/
private theorem lexToken_unterminated {q : UInt8} (literal : q = byte '"' ∨ q = byte '\'')
    (at_ : l.At (q :: text)) (enough : text.length < fuel) :
    (∃ body more, text = body ++ q :: more ∧ Body q body) ∨
      ∃ l', lexToken fuel l = .error .exit l' ∧ l'.Stopped := by
  rcases getString_outcome (l := l.mark) (isQuote_literal literal) at_.mark enough with
    found | ⟨l', rejected, ended⟩
  · exact .inl found
  · obtain ⟨store, run⟩ := lexToken_quote fuel literal at_
    exact .inr ⟨l', run.trans (bind_run_of_error rejected), ended.stopped⟩

theorem Comment.starts (comment : Comment more text)
    (opens : text ++ more = byte '/' :: byte '*' :: rest) :
    ∃ inner, text = byte '/' :: byte '*' :: inner ∧ rest = inner ++ more := by
  have star : ∀ {text}, Comment more text → text ++ more = byte '*' :: rest →
      ∃ inner, text = byte '*' :: inner ∧ rest = inner ++ more := by
    rintro text comment opens
    cases comment with
    | close => exact ⟨_, rfl, (List.cons.inj opens).2.symm⟩
    | unterminated ended => rw [ended] at opens; cases opens
    | inside _ _ =>
        obtain ⟨rfl, rest_eq⟩ := List.cons.inj opens
        exact ⟨_, rfl, rest_eq.symm⟩
  cases comment with
  | close => exact absurd (List.cons.inj opens).1 (by decide)
  | unterminated ended => rw [ended] at opens; cases opens
  | inside _ inner =>
      obtain ⟨rfl, inner_opens⟩ := List.cons.inj opens
      obtain ⟨behind, rfl, rest_eq⟩ := star inner inner_opens
      exact ⟨behind, rfl, rest_eq⟩

theorem lexToken_comment (at_ : l.At (byte '/' :: byte '*' :: rest))
    (enough : rest.length + 2 < fuel) :
    ∃ text more, rest = text ++ more ∧
      NextPiece fuel l ⟨byte '/' :: byte '*' :: text, none⟩ more := by
  obtain ⟨comment, more, same, valid, scanned⟩ :=
    skipComment_run (l := l.mark) at_.mark enough
  obtain ⟨text, rfl, rest_eq⟩ := valid.starts same.symm
  unfold NextPiece
  rw [lexToken, bind_run_of_ok at_.peak_zero, bind_run_of_ok (mark_run _), List.headD_cons,
    if_neg (by decide), if_neg (by decide), if_neg (by decide), if_neg (by decide),
    if_neg (by decide), bind_run_of_ok at_.mark.peak_one, if_pos ⟨rfl, rfl⟩]
  refine ⟨text, more, rest_eq, _, scanned, ?_⟩
  exact ⟨same ▸ at_, rfl, rfl, (List.append_nil _).symm, rfl, .comment valid, nofun, rfl⟩

private theorem operatorAt_zero (c : UInt8) : (operatorAt c 0).2 = 0 := by
  unfold operatorAt operatorAt.pair
  repeat' split
  all_goals first | rfl | (exfalso; revert ‹(0 : UInt8) = _›; decide)

private theorem singleKind_ne_string (c : UInt8) : singleKind c ≠ .string := by
  have choose : ∀ {p : Prop} [Decidable p] {one other : TokenKind}, one ≠ .string →
      other ≠ .string → (if p then one else other) ≠ .string := by
    intro p _ one other first second
    split
    · exact first
    · exact second
  unfold singleKind
  repeat' apply choose
  all_goals decide

theorem operatorAt_ne_string (c d : UInt8) : (operatorAt c d).1 ≠ .string := by
  unfold operatorAt operatorAt.pair
  repeat' split
  all_goals first | exact TokenKind.noConfusion | exact singleKind_ne_string c

theorem lexToken_operator (at_ : l.At (c :: rest)) (starts : StartsOperator c rest) :
    ∃ text more position, c :: rest = text ++ more ∧
      text.length = (operatorAt c (rest.headD 0)).2 + 1 ∧
      NextPiece fuel l ⟨text, some ⟨(operatorAt c (rest.headD 0)).1, none, 0, position⟩⟩ more := by
  have other := operatorAt_ne_string c (rest.headD 0)
  unfold NextPiece
  rw [lexToken, bind_run_of_ok at_.peak_zero, bind_run_of_ok (mark_run _), List.headD_cons,
    starts.space, if_neg Bool.false_ne_true, starts.word, if_neg Bool.false_ne_true, starts.digit,
    if_neg Bool.false_ne_true, if_neg starts.string, if_neg starts.character,
    bind_run_of_ok at_.mark.peak_one, if_neg starts.comment,
    bind_run_of_ok (operatorKind_run at_.mark)]
  rcases operatorAt_snd c (rest.headD 0) with one | two
  · rw [one]
    exact ⟨[c], rest, ⟨l.ln, l.cn⟩, rfl, rfl, _, rfl,
      .token at_ (.single starts one) (Piece.strings_other other _ _) rfl⟩
  · cases rest with
    | nil => exact absurd ((operatorAt_zero c).symm.trans two) (by decide)
    | cons d rest =>
        rw [two]
        exact ⟨[c, d], rest, ⟨l.ln, l.cn⟩, rfl, rfl, _, rfl,
          .token at_ (.double starts two) (Piece.strings_other other _ _) rfl⟩

/-! All cases of an iteration together. -/

/-- Every iteration reads a piece, or ends the run. -/
theorem lexToken_outcome (at_ : l.At text) (nonempty : text ≠ []) (enough : text.length < fuel) :
    (∃ piece more, NextPiece fuel l piece more) ∨
      ∃ l', lexToken fuel l = .error .exit l' ∧ l'.Stopped := by
  cases text with
  | nil => exact absurd rfl nonempty
  | cons c rest =>
  cases space : isspace c with
  | true => exact .inl ⟨_, _, lexToken_space at_ space⟩
  | false =>
  cases first : isalpha c || c == byte '_' with
  | true =>
      have split : l.At (c :: rest.takeWhile isWordByte ++ rest.dropWhile isWordByte) := by
        rw [List.cons_append, List.takeWhile_append_dropWhile]
        exact at_
      have fewer : (rest.takeWhile isWordByte).length + 1 < fuel :=
        Nat.lt_of_le_of_lt (Nat.succ_le_succ (List.takeWhile_prefix _).length_le) enough
      obtain ⟨position, next⟩ := lexToken_word split space first
        (fun d member => List.mem_takeWhile_imp member) (dropWhile_stops rfl rest) fewer
      exact .inl ⟨_, _, next⟩
  | false =>
  cases digit : isdigit c with
  | true =>
      obtain ⟨position, more, -, next⟩ := lexToken_number at_ space first digit enough
      exact .inl ⟨_, _, next⟩
  | false =>
  by_cases string : c = byte '"'
  · subst string
    have shorter : rest.length < fuel := Nat.lt_of_succ_lt enough
    rcases lexToken_unterminated (.inl rfl) at_ shorter with ⟨body, more, rfl, valid⟩ | stopped
    · have fewer : body.length + 1 < fuel := by
        simp only [List.length_cons, List.length_append] at enough
        omega
      obtain ⟨found, failed⟩ := lexToken_string valid at_ fewer
      cases decoding : decodeBody body with
      | none => exact .inr (failed decoding)
      | some decoded =>
          obtain ⟨position, next⟩ := found decoded decoding
          exact .inl ⟨_, _, next⟩
    · exact .inr stopped
  by_cases character : c = byte '\''
  · subst character
    have shorter : rest.length < fuel := Nat.lt_of_succ_lt enough
    rcases lexToken_unterminated (.inr rfl) at_ shorter with ⟨body, more, rfl, valid⟩ | stopped
    · have fewer : body.length + 1 < fuel := by
        simp only [List.length_cons, List.length_append] at enough
        omega
      obtain ⟨found, failed⟩ := lexToken_character valid at_ fewer
      cases decoding : decodeBody body with
      | none => exact .inr (failed decoding)
      | some decoded =>
          obtain ⟨position, next⟩ := found decoded decoding
          exact .inl ⟨_, _, next⟩
    · exact .inr stopped
  by_cases comment : c = byte '/' ∧ rest.headD 0 = byte '*'
  · obtain ⟨rfl, star⟩ := comment
    cases rest with
    | nil => exact absurd star (by decide)
    | cons d rest =>
        obtain rfl : d = byte '*' := star
        obtain ⟨text, more, -, next⟩ := lexToken_comment at_ enough
        exact .inl ⟨_, _, next⟩
  · obtain ⟨text, more, position, -, -, next⟩ :=
      lexToken_operator at_ ⟨space, first, digit, string, character, comment⟩
    exact .inl ⟨_, _, next⟩

end

end Trident
