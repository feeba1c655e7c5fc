import Trident.Lexing.Coverage

/-! Printed tokens, separated by white space, are read back by the lexer. -/

set_option autoImplicit false

namespace Trident

open Foundation

/-- The spelling of an identifier or a keyword. -/
structure IsName (name : Name) : Prop where
  first : ∃ c rest, name = c :: rest ∧ (isalpha c || c == byte '_') = true
  all : ∀ c ∈ name, isWordByte c

/-- A way to write the contents of a string literal. -/
structure Spelling (content : List UInt8) where
  text : List UInt8
  body : Body (byte '"') text
  decodes : decodeBody text = some content

/-- A byte of a string literal, with an escape where it needs one. -/
def escaped (c : UInt8) : List UInt8 :=
  if c = 0 then [byte '*', byte '0']
  else if c = byte '"' then [byte '*', byte '"']
  else if c = byte '*' then [byte '*', byte '*']
  else if c = byte '\n' then [byte '*', byte 'n']
  else [c]

/-- Every byte list is the contents of a literal. -/
def Spelling.cons (c : UInt8) {content : List UInt8} (later : Spelling content) :
    Spelling (c :: content) where
  text := escaped c ++ later.text
  body := by
    unfold escaped
    split
    · exact .escape (by decide) (by decide) later.body
    split
    · exact .escape (by decide) (by decide) later.body
    split
    · exact .escape (by decide) (by decide) later.body
    split
    · exact .escape (by decide) (by decide) later.body
    · exact .byte ‹_› ‹_› ‹_› ‹_› later.body
  decodes := by
    have escape : ∀ (d : UInt8), escapeByte d = some c →
        decodeBody ([byte '*', d] ++ later.text) = some (c :: content) := by
      intro d decoded
      rw [List.cons_append, List.cons_append, List.nil_append, decodeBody_escape, decoded,
        later.decodes]
      rfl
    unfold escaped
    split
    · subst c
      exact escape _ rfl
    split
    · subst c
      exact escape _ rfl
    split
    · subst c
      exact escape _ rfl
    split
    · subst c
      exact escape _ rfl
    · rename_i plain _
      rw [List.cons_append, List.nil_append, decodeBody_cons plain, later.decodes]
      rfl

/-- The spelling that escapes nothing else. -/
def Spelling.of : (content : List UInt8) → Spelling content
  | [] => ⟨[], .nil, rfl⟩
  | c :: content => (Spelling.of content).cons c

/-- The operators and the punctuation. -/
def operatorKinds : List TokenKind :=
  [.oBrace, .cBrace, .oPren, .cPren, .oBracket, .cBracket, .semicolon, .colon, .qMark, .comma,
    .not, .add, .sub, .mul, .dev, .mod, .bitAnd, .bitOr, .bitshiftL, .bitshiftR, .equal, .notEqual,
    .greater, .greaterEqual, .lesser, .lesserEqual, .assign, .inc, .dec]

/-- A token as a programmer writes it. -/
inductive SourceToken where
  | identifier (name : Name) (isName : IsName name) (plain : getKeywordKind name = none)
  | keyword (name : Name) (kind : TokenKind) (listed : getKeywordKind name = some kind)
  | int (value : Nat) (fits : value < 2 ^ 64)
  | string (content : List UInt8) (spelling : Spelling content)
  | operator (kind : TokenKind) (listed : kind ∈ operatorKinds)

/-- The decimal digits of a number. -/
def decimal (value : Nat) : Name := (Nat.toDigits 10 value).map byte

def operatorText (kind : TokenKind) : Name := (tokenKindToStr kind).toList.map byte

def SourceToken.text : SourceToken → List UInt8
  | .identifier name _ _ => name
  | .keyword name _ _ => name
  | .int value _ => decimal value
  | .string _ spelling => byte '"' :: (spelling.text ++ [byte '"'])
  | .operator kind _ => operatorText kind

/-- What a token says, without its position. -/
structure Meaning where
  kind : TokenKind
  lexeme : CStr
  intLit : Nat
  deriving DecidableEq, Repr

def Token.meaning (token : Token) : Meaning := ⟨token.kind, token.lexeme, token.intLit⟩

/-- The meaning of a token behind `strings` literals. -/
def SourceToken.meaning (strings : Nat) : SourceToken → Meaning
  | .identifier name _ _ => ⟨.identifier, some name, 0⟩
  | .keyword name kind _ => ⟨kind, some name, 0⟩
  | .int value _ => ⟨.int, some (decimal value), value⟩
  | .string content _ => ⟨.string, some content, strings + 1⟩
  | .operator kind _ => ⟨kind, none, 0⟩

def SourceToken.strings : SourceToken → Nat
  | .string _ _ => 1
  | _ => 0

/-- The meanings of a sequence; its literals are numbered one after the other. -/
def numbered (strings : Nat) : List SourceToken → List Meaning
  | [] => []
  | written :: later => written.meaning strings :: numbered (strings + written.strings) later

/-- Tokens, each with the white space behind it. -/
def printed (source : List (SourceToken × List UInt8)) : List UInt8 :=
  source.flatMap fun entry => entry.1.text ++ entry.2

section Decimal

private theorem digit_byte {c : Char} (digit : c.isDigit = true) :
    isdigit (byte c) = true ∧ digitValue (byte c) = c.toNat - 48 := by
  have all : ∀ k < 58, 48 ≤ k → isdigit k.toUInt8 = true ∧ digitValue k.toUInt8 = k - 48 := by
    decide
  obtain ⟨low, high⟩ : 48 ≤ c.toNat ∧ c.toNat ≤ 57 := by
    simp only [Char.isDigit, ge_iff_le, Bool.and_eq_true, decide_eq_true_eq, UInt32.le_iff_toNat_le] at digit
    exact digit
  exact all c.toNat (Nat.lt_succ_of_le high) low

private theorem decimal_digits (value : Nat) : ∀ c ∈ decimal value, isdigit c := by
  intro c member
  obtain ⟨digit, listed, rfl⟩ := List.mem_map.mp member
  exact (digit_byte (Nat.isDigit_of_mem_toDigits (by decide) (by decide) listed)).1

/-- Reading the digits of a number gives the number. -/
private theorem foldl_decimal (value : Nat) :
    (decimal value).foldl (fun value c => value * 10 + digitValue c) 0 = value := by
  have folded : ∀ (digits : List Char) (start : Nat), (∀ c ∈ digits, c.isDigit) →
      (digits.map byte).foldl (fun value c => value * 10 + digitValue c) start =
        Nat.ofDigitChars 10 digits start := by
    intro digits
    induction digits with
    | nil =>
        intro start _
        rfl
    | cons c digits ih =>
        intro start all
        have first := (digit_byte (all c List.mem_cons_self)).2
        rw [List.map_cons, List.foldl_cons, first, Nat.ofDigitChars_cons,
          ih _ fun d member => all d (List.mem_cons_of_mem _ member), Nat.mul_comm]
        rfl
  rw [decimal, folded _ _ fun c => Nat.isDigit_of_mem_toDigits (by decide) (by decide),
    Nat.ofDigitChars_ten_toDigits]

private theorem digitsValue_decimal {value : Nat} (fits : value < 2 ^ 64) :
    digitsValue 10 (decimal value) = value := by
  rw [digitsValue, foldl_decimal]
  omega

/-- A number other than zero does not start with `0`. -/
private theorem decimal_cons {value : Nat} (positive : 0 < value) :
    ∃ c rest, decimal value = c :: rest ∧ c ≠ byte '0' := by
  unfold decimal
  induction value using Nat.strong_induction_on with
  | h value ih =>
    by_cases small : value < 10
    · rw [Nat.toDigits_of_lt_base small]
      have all : ∀ k < 10, 0 < k → byte k.digitChar ≠ byte '0' := by decide
      exact ⟨_, _, rfl, all value small positive⟩
    · have large := Nat.le_of_not_lt small
      obtain ⟨c, rest, same, different⟩ :=
        ih (value / 10) (Nat.div_lt_self positive (by decide)) (Nat.div_pos large (by decide))
      rw [Nat.toDigits_of_base_le (by decide) large, List.map_append, same]
      exact ⟨_, _, rfl, different⟩
end Decimal

/-- The bytes behind a printed token. -/
def blanks : List UInt8 := [0, 9, 10, 11, 12, 13, 32]

section Blanks

variable {c d : UInt8}

private theorem mem_blanks_of_isspace (space : isspace c = true) : c ∈ blanks := by
  have small : c.toNat < 33 := by
    simp only [isspace, Bool.or_eq_true, beq_iff_eq, Bool.and_eq_true, decide_eq_true_eq,
      UInt8.le_iff_toNat_le] at space
    rcases space with rfl | ⟨-, high⟩
    · decide
    · exact Nat.lt_of_le_of_lt high (by decide)
  have all : ∀ k < 33, isspace (UInt8.ofNat k) = true → UInt8.ofNat k ∈ blanks := by decide
  have listed := all c.toNat small
  rw [UInt8.ofNat_toNat] at listed
  exact listed space

theorem isspace_eq_false (test : UInt8 → Bool) (apart : ∀ d ∈ blanks, test d = false)
    (passes : test c = true) : isspace c = false := by
  by_contra space
  have blank := apart c (mem_blanks_of_isspace (eq_true_of_ne_false space))
  rw [passes] at blank
  cases blank

end Blanks

/-- How the `switch` reads a printed operator with the byte `d` behind it. -/
def operatorRead (kind : TokenKind) (d : UInt8) : Bool :=
  match operatorText kind with
  | [c] => operatorAt c d == (kind, 0) && starts c && !(c == byte '/' && d == byte '*')
  | [c, second] =>
      operatorAt c second == (kind, 1) && starts c && !(c == byte '/' && second == byte '*')
  | _ => false
where
  starts (c : UInt8) : Bool :=
    !isspace c && !(isalpha c || c == byte '_') && !isdigit c && c != byte '"' && c != byte '\''

private theorem operator_read : ∀ kind ∈ operatorKinds, ∀ d ∈ blanks, operatorRead kind d = true := by
  decide +kernel

section

variable {l : Lexer} {more : List UInt8} {fuel : Nat}

private theorem word_next {name : Name} (isName : IsName name) (at_ : l.At (name ++ more))
    (ends : more.headD 0 ∈ blanks) (enough : name.length < fuel) :
    ∃ token, NextPiece fuel l ⟨name, some token⟩ more ∧
      token.meaning = ⟨(getKeywordKind name).getD .identifier, some name, 0⟩ := by
  obtain ⟨c, rest, rfl, first⟩ := isName.first
  have space : isspace c = false :=
    isspace_eq_false (fun c => isalpha c || c == byte '_') (by decide +kernel) first
  have stops : isWordByte (more.headD 0) = false :=
    (by decide +kernel : ∀ d ∈ blanks, isWordByte d = false) _ ends
  obtain ⟨position, next⟩ := lexToken_word at_ space first
    (fun d member => isName.all d (List.mem_cons_of_mem _ member)) stops enough
  exact ⟨_, next, rfl⟩

private theorem keyword_isName {name : Name} {kind : TokenKind}
    (listed : getKeywordKind name = some kind) : IsName name := by
  obtain ⟨keyword, member, same⟩ := List.exists_of_findSome?_eq_some listed
  split at same
  · rename_i spelled
    subst spelled
    simp only [List.mem_cons, List.not_mem_nil, or_false] at member
    rcases member with rfl | rfl | rfl | rfl | rfl | rfl | rfl
    all_goals exact ⟨⟨_, _, rfl, by decide⟩, by decide +kernel⟩
  · cases same

private theorem numberText_decimal_append (value : Nat) (ends : more.headD 0 ∈ blanks) :
    numberText (decimal value ++ more) = decimal value := by
  have digits := decimal_digits value
  have stops : isdigit (more.headD 0) = false :=
    (by decide +kernel : ∀ d ∈ blanks, isdigit d = false) _ ends
  have taken : ∀ {text : List UInt8}, (∀ c ∈ text, isdigit c) →
      (text ++ more).takeWhile isdigit = text := by
    intro text all
    rw [List.takeWhile_append_of_pos all]
    cases more with
    | nil => exact List.append_nil _
    | cons d more => rw [List.takeWhile_cons_of_neg (by rw [List.headD_cons] at stops; simp [stops]),
        List.append_nil]
  rcases Nat.eq_zero_or_pos value with rfl | positive
  · have others : ∀ d ∈ blanks, ¬ (d = byte 'x' ∨ d = byte 'X') ∧ ¬ (d = byte 'b' ∨ d = byte 'B') := by
      decide +kernel
    obtain ⟨hex, binary⟩ := others _ ends
    have octal : numberText (byte '0' :: more) = byte '0' :: more.takeWhile isdigit :=
      numberText_octal rfl hex binary
    refine octal.trans (congrArg _ ?_)
    exact taken (List.forall_mem_nil _)
  · obtain ⟨c, rest, same, different⟩ := decimal_cons positive
    have all := taken digits
    rw [same, List.cons_append] at all ⊢
    rw [numberText_decimal different, all]

private theorem digit_bounds {c : UInt8} (digit : isdigit c = true) : 48 ≤ c.toNat ∧ c.toNat ≤ 57 := by
  simp only [isdigit, Bool.and_eq_true, decide_eq_true_eq, UInt8.le_iff_toNat_le] at digit
  exact digit

private theorem isDigitOf_ten {c : UInt8} (digit : isdigit c = true) : isDigitOf 10 c = true := by
  obtain ⟨-, high⟩ := digit_bounds digit
  rw [isDigitOf, digitValue, if_pos digit]
  exact decide_eq_true (by omega)

theorem digit_not_letter {c : UInt8} (digit : isdigit c = true) :
    (isalpha c || c == byte '_') = false := by
  have all : ∀ k < 58, 48 ≤ k →
      (isalpha (UInt8.ofNat k) || UInt8.ofNat k == byte '_') = false := by decide
  obtain ⟨low, high⟩ := digit_bounds digit
  have apart := all c.toNat (Nat.lt_succ_of_le high) low
  rwa [UInt8.ofNat_toNat] at apart

private theorem numberValue_decimal {value : Nat} (fits : value < 2 ^ 64) :
    numberValue (decimal value) = value := by
  rcases Nat.eq_zero_or_pos value with rfl | positive
  · decide
  · have digits : (decimal value).takeWhile (isDigitOf 10) = decimal value :=
      List.takeWhile_eq_self_iff.mpr fun c member => isDigitOf_ten (decimal_digits value c member)
    have same_value := digitsValue_decimal fits
    obtain ⟨c, rest, same, different⟩ := decimal_cons positive
    rw [same] at digits same_value ⊢
    have apart : (c == byte '0') = false := beq_false_of_ne different
    have zero : (some c == some (byte '0')) = false := apart
    rw [numberValue, if_neg fun binary => different (Option.some.inj binary.1), strtoull, if_pos rfl]
    simp only [List.head?_cons, zero, Bool.false_and, Bool.false_eq_true, if_false]
    rw [digits, same_value]

private theorem int_next {value : Nat} (fits : value < 2 ^ 64) (at_ : l.At (decimal value ++ more))
    (ends : more.headD 0 ∈ blanks) (enough : (decimal value ++ more).length < fuel) :
    ∃ token, NextPiece fuel l ⟨decimal value, some token⟩ more ∧
      token.meaning = ⟨.int, some (decimal value), value⟩ := by
  have taken := numberText_decimal_append value ends
  have digits := decimal_digits value
  have same_value := numberValue_decimal fits
  have nonempty : decimal value ≠ [] := fun empty => Nat.toDigits_ne_nil (List.map_eq_nil_iff.mp empty)
  obtain ⟨c, rest, same⟩ := List.exists_cons_of_ne_nil nonempty
  rw [same] at digits same_value taken at_ enough ⊢
  rw [List.cons_append] at at_ enough taken
  have digit := digits c List.mem_cons_self
  have space := isspace_eq_false isdigit (by decide +kernel) digit
  obtain ⟨position, more', whole, next⟩ := lexToken_number at_ space (digit_not_letter digit) digit enough
  rw [taken] at next whole
  obtain rfl := List.append_cancel_left whole
  refine ⟨_, next, ?_⟩
  rw [Token.meaning, same_value]

private theorem starts_operator {c : UInt8} {rest : List UInt8} (starts : operatorRead.starts c = true)
    (comment : (!(c == byte '/' && rest.headD 0 == byte '*')) = true) : StartsOperator c rest := by
  simp only [operatorRead.starts, Bool.and_eq_true, Bool.not_eq_true', bne_iff_ne] at starts
  obtain ⟨⟨⟨⟨space, word⟩, digit⟩, string⟩, character⟩ := starts
  refine ⟨space, word, digit, string, character, ?_⟩
  rintro ⟨rfl, star⟩
  rw [star] at comment
  cases comment

private theorem operator_next {kind : TokenKind} (listed : kind ∈ operatorKinds)
    (at_ : l.At (operatorText kind ++ more)) (ends : more.headD 0 ∈ blanks) :
    ∃ token, NextPiece fuel l ⟨operatorText kind, some token⟩ more ∧
      token.meaning = ⟨kind, none, 0⟩ := by
  have read := operator_read kind listed _ ends
  unfold operatorRead at read
  split at read
  · rename_i c same
    rw [same] at at_ ⊢
    simp only [Bool.and_eq_true, beq_iff_eq] at read
    obtain ⟨⟨found, starts⟩, comment⟩ := read
    have single : l.At (c :: more) := at_
    obtain ⟨text, more', position, whole, length, next⟩ :=
      lexToken_operator single (starts_operator starts comment)
    rw [found] at length next
    have parts : [c] ++ more = text ++ more' := whole
    obtain ⟨rfl, rfl⟩ := List.append_inj parts length.symm
    exact ⟨_, next, rfl⟩
  · rename_i c second same
    rw [same] at at_ ⊢
    simp only [Bool.and_eq_true, beq_iff_eq] at read
    obtain ⟨⟨found, starts⟩, comment⟩ := read
    have double : l.At (c :: second :: more) := at_
    obtain ⟨text, more', position, whole, length, next⟩ :=
      lexToken_operator double (starts_operator starts comment)
    rw [List.headD_cons, found] at length next
    have parts : [c, second] ++ more = text ++ more' := whole
    obtain ⟨rfl, rfl⟩ := List.append_inj parts length.symm
    exact ⟨_, next, rfl⟩
  · cases read

theorem SourceToken.next (written : SourceToken) (at_ : l.At (written.text ++ more))
    (ends : more.headD 0 ∈ blanks) (enough : (written.text ++ more).length < fuel) :
    ∃ token, NextPiece fuel l ⟨written.text, some token⟩ more ∧
      token.meaning = written.meaning l.srtDataC := by
  have shorter : written.text.length < fuel := by
    rw [List.length_append] at enough
    omega
  cases written with
  | identifier name isName plain =>
      obtain ⟨token, next, meaning⟩ := word_next isName at_ ends shorter
      rw [plain] at meaning
      exact ⟨token, next, meaning⟩
  | keyword name kind listed =>
      obtain ⟨token, next, meaning⟩ := word_next (keyword_isName listed) at_ ends shorter
      rw [listed] at meaning
      exact ⟨token, next, meaning⟩
  | int value fits => exact int_next fits at_ ends enough
  | string content spelling =>
      have literal : l.At (byte '"' :: (spelling.text ++ byte '"' :: more)) := by
        simpa [SourceToken.text] using at_
      have fewer : spelling.text.length + 1 < fuel := by
        simp only [SourceToken.text, List.length_cons, List.length_append] at shorter
        omega
      obtain ⟨position, next⟩ := (lexToken_string spelling.body literal fewer).1 _ spelling.decodes
      exact ⟨_, next, rfl⟩
  | operator kind listed => exact operator_next listed at_ ends

end

/-- A text of printed tokens, with at least one blank behind each of them or the
end of the buffer. -/
inductive Printing : List SourceToken → List UInt8 → Prop where
  | nil : Printing [] []
  | space {source text c} : isspace c = true → Printing source text → Printing source (c :: text)
  | token {written : SourceToken} {later more} : more.headD 0 ∈ blanks → Printing later more →
      Printing (written :: later) (written.text ++ more)

theorem Printing.spaces {source : List SourceToken} {gap text : List UInt8}
    (all : ∀ c ∈ gap, isspace c = true) (printing : Printing source text) :
    Printing source (gap ++ text) := by
  induction gap with
  | nil => exact printing
  | cons c gap ih =>
      have later := ih fun d member => all d (List.mem_cons_of_mem _ member)
      exact .space (all c List.mem_cons_self) later

private theorem printed_printing (source : List (SourceToken × List UInt8))
    (spaces : ∀ entry ∈ source, ∀ c ∈ entry.2, isspace c = true)
    (separated : ∀ entry ∈ source.dropLast, entry.2 ≠ []) :
    Printing (source.map Prod.fst) (printed source) := by
  induction source with
  | nil => exact .nil
  | cons entry later ih =>
      obtain ⟨written, gap⟩ := entry
      have blank : ∀ c ∈ gap, isspace c = true := spaces (written, gap) List.mem_cons_self
      have behind : (gap ++ printed later).headD 0 ∈ blanks := by
        cases gap with
        | cons c gap => exact mem_blanks_of_isspace (blank c List.mem_cons_self)
        | nil =>
            cases later with
            | nil => exact List.mem_cons_self
            | cons next later =>
                exact absurd rfl (separated (written, []) List.mem_cons_self)
      have rest : Printing (later.map Prod.fst) (printed later) := by
        apply ih
        · intro next member
          exact spaces next (List.mem_cons_of_mem _ member)
        · intro next member
          cases later with
          | nil => cases member
          | cons first later => exact separated next (List.mem_cons_of_mem _ member)
      have whole : printed ((written, gap) :: later) = written.text ++ (gap ++ printed later) := by
        rw [printed, List.flatMap_cons, List.append_assoc]
        rfl
      rw [whole]
      exact .token behind (rest.spaces blank)

theorem SourceToken.strings_eq (written : SourceToken) (strings : Nat) :
    written.strings = if (written.meaning strings).kind = .string then 1 else 0 := by
  cases written with
  | identifier | int | string => rfl
  | keyword name kind listed =>
      have other := keywordKind_ne_string name
      rw [listed] at other
      exact (if_neg other).symm
  | operator kind listed =>
      have all : ∀ kind ∈ operatorKinds, kind ≠ .string := by decide
      exact (if_neg (all kind listed)).symm

section

variable {l : Lexer} {source : List SourceToken} {text : List UInt8} {fuel rounds : Nat}

private theorem lexerLoop_printing (printing : Printing source text) (at_ : l.At text)
    (rounds_enough : text.length < rounds) (enough : text.length < fuel) :
    ∃ final, lexerLoop fuel rounds l = .ok () final ∧
      final.tokens.map Token.meaning =
        l.tokens.map Token.meaning ++ numbered l.srtDataC source := by
  induction printing generalizing l rounds with
  | nil =>
      obtain ⟨rounds, rfl⟩ := Nat.exists_eq_succ_of_ne_zero (Nat.ne_zero_of_lt rounds_enough)
      exact ⟨l, lexerLoop_end at_, (List.append_nil _).symm⟩
  | @space source text c blank _ ih =>
      obtain ⟨rounds, rfl⟩ := Nat.exists_eq_succ_of_ne_zero (Nat.ne_zero_of_lt rounds_enough)
      obtain ⟨l', run, reads⟩ := lexToken_space at_ blank
      obtain ⟨final, later, tokens⟩ := ih reads.at_more (Nat.lt_of_succ_lt_succ rounds_enough)
        (Nat.lt_of_succ_lt enough)
      refine ⟨final, ?_, ?_⟩
      · rw [lexerLoop_step at_ (List.cons_ne_nil _ _), bind_run_of_ok run, later]
      · rw [tokens, reads.tokens, reads.strings]
        exact congrArg (· ++ _) (congrArg (List.map _) (List.append_nil _))
  | @token written later more blank _ ih =>
      obtain ⟨rounds, rfl⟩ := Nat.exists_eq_succ_of_ne_zero (Nat.ne_zero_of_lt rounds_enough)
      obtain ⟨token, ⟨l', run, reads⟩, meaning⟩ := written.next at_ blank enough
      have nonempty : 0 < written.text.length := List.length_pos_iff.mpr reads.valid.nonempty
      rw [List.length_append] at rounds_enough enough
      have fewer_rounds : more.length < rounds := by omega
      have fewer : more.length < fuel := by omega
      obtain ⟨final, rest, tokens⟩ := ih reads.at_more fewer_rounds fewer
      have text_nonempty : written.text ++ more ≠ [] := by
        intro empty
        exact reads.valid.nonempty (List.append_eq_nil_iff.mp empty).1
      have kind : token.kind = (written.meaning l.srtDataC).kind := congrArg Meaning.kind meaning
      have strings : Piece.strings ⟨written.text, some token⟩ = written.strings := by
        rw [Piece.strings, Option.any_some, kind, written.strings_eq l.srtDataC]
        simp only [decide_eq_true_eq]
      refine ⟨final, ?_, ?_⟩
      · rw [lexerLoop_step at_ text_nonempty, bind_run_of_ok run, rest]
      · rw [tokens, reads.tokens, reads.strings, strings, numbered, List.map_append,
          List.append_assoc, ← meaning]
        rfl

end

/-- Reading printed tokens gives the tokens, their lexemes and their values, with
the literals numbered in order. -/
theorem lexer_printed (source : List (SourceToken × List UInt8))
    (spaces : ∀ entry ∈ source, ∀ c ∈ entry.2, isspace c = true)
    (separated : ∀ entry ∈ source.dropLast, entry.2 ≠ []) :
    ∃ l, lexer (initLexer (printed source)) = .ok () l ∧
      l.tokens.map Token.meaning = numbered 0 (source.map Prod.fst) := by
  have start : (initLexer (printed source)).At (printed source) := ⟨Nat.zero_le _, rfl⟩
  have enough : (printed source).length < lexerFuel (printed source).length :=
    Nat.lt_add_of_pos_right Nat.two_pos
  exact lexerLoop_printing (printed_printing source spaces separated) start enough enough

/-- A declaration, a string and a comparison. -/
theorem lexer_printed_five :
    ∃ l, lexer (initLexer (printed
      [(.keyword (['a', 'u', 't', 'o'].map byte) .auto (by decide), [32]),
        (.identifier [byte 'x'] ⟨⟨_, _, rfl, by decide⟩, List.forall_mem_singleton.mpr rfl⟩ (by decide), [9, 10]),
        (.string [byte '*', 10] (.of _), [32]), (.int 7 (by decide), [32]),
        (.operator .lesserEqual (by decide), [])])) = .ok () l ∧
      l.tokens.map Token.meaning =
        [⟨.auto, some (['a', 'u', 't', 'o'].map byte), 0⟩, ⟨.identifier, some [byte 'x'], 0⟩,
          ⟨.string, some [byte '*', 10], 1⟩, ⟨.int, some [byte '7'], 7⟩,
          ⟨.lesserEqual, none, 0⟩] := by
  refine lexer_printed _ ?_ ?_
  · decide +kernel
  · decide +kernel

end Trident
