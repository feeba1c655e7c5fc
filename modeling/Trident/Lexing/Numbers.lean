import Trident.Lexing.Printing
import Mathlib.Data.Nat.Digits.Defs

/-! The values of numeric literals, in all bases. -/

set_option autoImplicit false

namespace Trident

open Foundation

/-- The base of a literal, by its first two bytes. -/
def literalBase : List UInt8 → Nat
  | [] => 10
  | c :: rest =>
      if c ≠ byte '0' then 10
      else if rest.headD 0 = byte 'x' ∨ rest.headD 0 = byte 'X' then 16
      else if rest.headD 0 = byte 'b' ∨ rest.headD 0 = byte 'B' then 2
      else 8

/-- The length of the prefix that gives the base. -/
def prefixLength (text : List UInt8) : Nat :=
  if literalBase text = 16 ∨ literalBase text = 2 then 2 else 0

/-- The longest run of digits of that base. -/
def literalDigits (text : List UInt8) : List UInt8 :=
  (text.drop (prefixLength text)).takeWhile (isDigitOf (literalBase text))

def literalText (text : List UInt8) : List UInt8 := text.take (prefixLength text) ++ literalDigits text

/-- The value of the digits in that base. -/
def literalValue (text : List UInt8) : Nat :=
  Nat.ofDigits (literalBase text) ((literalDigits text).reverse.map digitValue)

/-- An octal constant goes on with an `8` or a `9`. -/
def InvalidOctal (text : List UInt8) : Prop :=
  literalBase text = 8 ∧ isdigit ((text.dropWhile (isDigitOf 8)).headD 0) = true

private theorem digitsValue_eq (base : Nat) (digits : List UInt8) :
    digitsValue base digits =
      min (Nat.ofDigits base (digits.reverse.map digitValue)) (2 ^ 64 - 1) := by
  rw [digitsValue, Nat.ofDigits_eq_foldr, List.foldr_map, List.foldr_reverse]
  simp only [Nat.cast_id, Nat.add_comm, Nat.mul_comm]

section Classes

private theorem of_bytes {p q : UInt8 → Bool} (same : ∀ k < 256, p (UInt8.ofNat k) = q (UInt8.ofNat k)) :
    p = q :=
  funext (forall_bytes same)

private theorem isDigitOf_sixteen : isDigitOf 16 = isxdigit := of_bytes (by decide +kernel)

private theorem isDigitOf_decimal : isDigitOf 10 = isdigit := of_bytes (by decide +kernel)

private theorem isDigitOf_eight : isDigitOf 8 = isoctal := of_bytes (by decide +kernel)

private theorem isDigitOf_two : isDigitOf 2 = fun c => c == byte '0' || c == byte '1' :=
  of_bytes (by decide +kernel)

private theorem isdigit_of_isoctal {c : UInt8} (octal : isoctal c = true) : isdigit c = true := by
  have both : (fun c => isoctal c && !isdigit c) = fun _ => false := of_bytes (by decide +kernel)
  simpa [octal] using congrFun both c

end Classes

section Runs

variable {wide narrow : UInt8 → Bool}

/-- The run for the wider of two tests is one for the narrower if that stops with it. -/
private theorem all_takeWhile_iff (zero : wide 0 = false) (within : ∀ c, narrow c = true → wide c = true)
    (text : List UInt8) :
    (text.takeWhile wide).all narrow = true ↔ wide ((text.dropWhile narrow).headD 0) = false := by
  induction text with
  | nil => simp [zero]
  | cons c text ih =>
      cases first : narrow c with
      | true => simpa [first, within c first] using ih
      | false => cases second : wide c <;> simp [first, second]

private theorem takeWhile_eq_of_all (within : ∀ c, narrow c = true → wide c = true) (text : List UInt8)
    (all : (text.takeWhile wide).all narrow = true) : text.takeWhile wide = text.takeWhile narrow := by
  induction text with
  | nil => rfl
  | cons c text ih =>
      cases first : narrow c with
      | true =>
          have later : (text.takeWhile wide).all narrow = true := by
            simpa [first, within c first] using all
          simp [first, within c first, ih later]
      | false =>
          cases second : wide c with
          | false => simp [first, second]
          | true => simp [first, second] at all

end Runs

/-- What the lexer makes of a literal: its text, its value up to saturation, and
whether a digit is reported. -/
structure ReadsLiteral (text : List UInt8) : Prop where
  bad : badOctal (numberText text) = true ↔ InvalidOctal text
  lexeme : ¬ InvalidOctal text → numberText text = literalText text
  value : ¬ InvalidOctal text → numberValue (numberText text) = min (literalValue text) (2 ^ 64 - 1)

section Conversion

variable {c d : UInt8} {digits : List UInt8}

private theorem strtoull_hex (hex : d = byte 'x' ∨ d = byte 'X') (all : ∀ e ∈ digits, isxdigit e = true) :
    strtoull (byte '0' :: d :: digits) 0 = digitsValue 16 digits := by
  cases digits with
  | nil => rcases hex with rfl | rfl <;> decide
  | cons e digits =>
      have taken : (e :: digits).takeWhile (isDigitOf 16) = e :: digits := by
        rw [isDigitOf_sixteen]
        exact List.takeWhile_eq_self_iff.mpr all
      have marked : (some d == some (byte 'x') || some d == some (byte 'X')) = true := by
        rcases hex with rfl | rfl <;> rfl
      have first : isxdigit e = true := all e List.mem_cons_self
      simp only [strtoull, List.head?_cons, List.tail_cons, List.drop_succ_cons, List.drop_zero,
        marked, first, Option.any_some, beq_self_eq_true, Bool.and_self, if_true, taken]

private theorem strtoull_octal (all : ∀ e ∈ digits, isoctal e = true) :
    strtoull (byte '0' :: digits) 0 = digitsValue 8 (byte '0' :: digits) := by
  have taken : (byte '0' :: digits).takeWhile (isDigitOf 8) = byte '0' :: digits := by
    rw [isDigitOf_eight]
    exact List.takeWhile_eq_self_iff.mpr (List.forall_mem_cons.mpr ⟨rfl, all⟩)
  have unmarked : (digits.head? == some (byte 'x') || digits.head? == some (byte 'X')) = false := by
    cases digits with
    | nil => rfl
    | cons e digits =>
        have octal := all e List.mem_cons_self
        have mark := isBaseMark_of_isdigit (isdigit_of_isoctal octal)
        simp only [isBaseMark, decide_eq_false_iff_not, List.mem_cons, not_or] at mark
        simp [mark]
  simp only [strtoull, List.head?_cons, List.tail_cons, unmarked, Bool.and_false, Bool.false_and,
    if_true, beq_self_eq_true, taken]
  rfl

private theorem strtoull_decimal (zero : c ≠ byte '0') (all : ∀ e ∈ c :: digits, isdigit e = true) :
    strtoull (c :: digits) 0 = digitsValue 10 (c :: digits) := by
  have taken : (c :: digits).takeWhile (isDigitOf 10) = c :: digits := by
    rw [isDigitOf_decimal]
    exact List.takeWhile_eq_self_iff.mpr all
  have other : (some c == some (byte '0')) = false := by simpa using zero
  simp only [strtoull, List.head?_cons, other, Bool.false_and, if_true, taken]
  rfl

private theorem strtoull_binary (all : ∀ e ∈ digits, isDigitOf 2 e = true) :
    strtoull digits 2 = digitsValue 2 digits := by
  rw [strtoull, List.takeWhile_eq_self_iff.mpr all]
  rfl

end Conversion

section Bases

variable {c d : UInt8} {rest more : List UInt8}

private theorem numberValue_unmarked {text : Name} (head : text.head? ≠ some (byte '0') ∨
    (text[1]? ≠ some (byte 'b') ∧ text[1]? ≠ some (byte 'B'))) :
    numberValue text = strtoull text 0 := by
  rw [numberValue, if_neg]
  rintro ⟨zero, mark⟩
  rcases head with other | ⟨small, large⟩
  · exact other zero
  · exact mark.elim small large

private theorem readsLiteral_hex (hex : d = byte 'x' ∨ d = byte 'X') :
    ReadsLiteral (byte '0' :: d :: more) := by
  have base : literalBase (byte '0' :: d :: more) = 16 := by simp [literalBase, hex]
  have valid : ¬ InvalidOctal (byte '0' :: d :: more) := by simp [InvalidOctal, base]
  have mark : isBaseMark d = true := by
    rcases hex with rfl | rfl <;> rfl
  have digits : literalDigits (byte '0' :: d :: more) = more.takeWhile isxdigit := by
    simp [literalDigits, prefixLength, base, isDigitOf_sixteen]
  constructor
  · simp [numberText_hex rfl hex, badOctal_marked mark, valid]
  · intro _
    simp [numberText_hex rfl hex, literalText, digits, prefixLength, base]
  · intro _
    have unmarked : numberValue (byte '0' :: d :: more.takeWhile isxdigit) =
        strtoull (byte '0' :: d :: more.takeWhile isxdigit) 0 := by
      apply numberValue_unmarked
      rcases hex with rfl | rfl <;> exact .inr ⟨by simp; decide, by simp; decide⟩
    rw [numberText_hex rfl hex, unmarked, strtoull_hex hex fun e member => List.mem_takeWhile_imp member,
      digitsValue_eq, literalValue, digits, base]

private theorem readsLiteral_binary (hex : ¬ (d = byte 'x' ∨ d = byte 'X'))
    (binary : d = byte 'b' ∨ d = byte 'B') : ReadsLiteral (byte '0' :: d :: more) := by
  have base : literalBase (byte '0' :: d :: more) = 2 := by simp [literalBase, hex, binary]
  have valid : ¬ InvalidOctal (byte '0' :: d :: more) := by simp [InvalidOctal, base]
  have mark : isBaseMark d = true := by
    rcases binary with rfl | rfl <;> rfl
  have digits : literalDigits (byte '0' :: d :: more) =
      more.takeWhile fun e => e == byte '0' || e == byte '1' := by
    simp [literalDigits, prefixLength, base, isDigitOf_two]
  constructor
  · simp [numberText_binary rfl hex binary, badOctal_marked mark, valid]
  · intro _
    simp [numberText_binary rfl hex binary, literalText, digits, prefixLength, base]
  · intro _
    rw [← isDigitOf_two] at digits
    have all : ∀ e ∈ more.takeWhile (isDigitOf 2), isDigitOf 2 e = true :=
      fun e member => List.mem_takeWhile_imp member
    rw [numberText_binary rfl hex binary, numberValue, if_pos (by simp [binary]), literalValue, digits,
      base, ← digitsValue_eq, ← isDigitOf_two]
    exact strtoull_binary all

private theorem readsLiteral_octal (hex : ¬ (rest.headD 0 = byte 'x' ∨ rest.headD 0 = byte 'X'))
    (binary : ¬ (rest.headD 0 = byte 'b' ∨ rest.headD 0 = byte 'B')) :
    ReadsLiteral (byte '0' :: rest) := by
  have base : literalBase (byte '0' :: rest) = 8 := by
    rw [literalBase, if_neg (by simp), if_neg hex, if_neg binary]
  have taken := numberText_octal rfl hex binary
  have digits : ∀ d ∈ rest.takeWhile isdigit, isdigit d := fun d member => List.mem_takeWhile_imp member
  have literal : literalDigits (byte '0' :: rest) = byte '0' :: rest.takeWhile isoctal := by
    rw [literalDigits, prefixLength, base, isDigitOf_eight]
    exact List.takeWhile_cons_of_pos rfl
  have runs := all_takeWhile_iff (rfl : isdigit 0 = false) (fun _ => isdigit_of_isoctal) rest
  have invalid : InvalidOctal (byte '0' :: rest) ↔ (rest.takeWhile isdigit).all isoctal = false := by
    rw [InvalidOctal, base, isDigitOf_eight, List.dropWhile_cons_of_pos rfl, ← Bool.not_eq_true, runs]
    simp
  have octal (valid : ¬ InvalidOctal (byte '0' :: rest)) :
      rest.takeWhile isdigit = rest.takeWhile isoctal := by
    rw [invalid, Bool.not_eq_false] at valid
    exact takeWhile_eq_of_all (fun _ => isdigit_of_isoctal) rest valid
  constructor
  · rw [taken, badOctal_plain rfl digits, invalid, Bool.not_eq_true']
  · intro valid
    rw [taken, octal valid, literalText, literal, prefixLength, base]
    rfl
  · intro valid
    have all : ∀ e ∈ rest.takeWhile isoctal, isoctal e = true :=
      fun e member => List.mem_takeWhile_imp member
    have unmarked : numberValue (byte '0' :: rest.takeWhile isoctal) =
        strtoull (byte '0' :: rest.takeWhile isoctal) 0 := by
      apply numberValue_unmarked
      right
      cases run : rest.takeWhile isoctal with
      | nil => exact ⟨nofun, nofun⟩
      | cons e more =>
          have mark := isBaseMark_of_isdigit (isdigit_of_isoctal (all e (by simp [run])))
          simp only [isBaseMark, decide_eq_false_iff_not, List.mem_cons, not_or] at mark
          simp [mark]
    rw [taken, octal valid, unmarked, strtoull_octal all, digitsValue_eq, literalValue, literal, base]

private theorem readsLiteral_decimal (zero : c ≠ byte '0') (digit : isdigit c = true) :
    ReadsLiteral (c :: rest) := by
  have base : literalBase (c :: rest) = 10 := by simp [literalBase, zero]
  have valid : ¬ InvalidOctal (c :: rest) := by simp [InvalidOctal, base]
  have taken : numberText (c :: rest) = c :: rest.takeWhile isdigit := by
    rw [numberText_decimal zero, List.takeWhile_cons_of_pos digit]
  have literal : literalDigits (c :: rest) = c :: rest.takeWhile isdigit := by
    rw [literalDigits, prefixLength, base, isDigitOf_decimal]
    exact List.takeWhile_cons_of_pos digit
  constructor
  · simp [taken, badOctal_decimal zero, valid]
  · intro _
    rw [taken, literalText, literal, prefixLength, base]
    rfl
  · intro _
    have all : ∀ e ∈ c :: rest.takeWhile isdigit, isdigit e = true :=
      List.forall_mem_cons.mpr ⟨digit, fun e member => List.mem_takeWhile_imp member⟩
    have unmarked : numberValue (c :: rest.takeWhile isdigit) =
        strtoull (c :: rest.takeWhile isdigit) 0 :=
      numberValue_unmarked (.inl (by simpa using zero))
    rw [taken, unmarked, strtoull_decimal zero all, digitsValue_eq, literalValue, literal, base]

end Bases

private theorem readsLiteral {c : UInt8} (digit : isdigit c = true) (rest : List UInt8) :
    ReadsLiteral (c :: rest) := by
  by_cases zero : c = byte '0'
  · subst zero
    by_cases hex : rest.headD 0 = byte 'x' ∨ rest.headD 0 = byte 'X'
    · cases rest with
      | nil => exact absurd hex (by decide)
      | cons d more => exact readsLiteral_hex hex
    by_cases binary : rest.headD 0 = byte 'b' ∨ rest.headD 0 = byte 'B'
    · cases rest with
      | nil => exact absurd binary (by decide)
      | cons d more => exact readsLiteral_binary hex binary
    · exact readsLiteral_octal hex binary
  · exact readsLiteral_decimal zero digit

/-- A numeric literal is reported, or read with its value, if it fits in 64 bits or is
an octal constant with an `8` or `9`, which is reported. Otherwise it is read with
another value. -/
theorem lexToken_literal {l : Lexer} {c : UInt8} {rest : List UInt8} {fuel : Nat}
    (at_ : l.At (c :: rest)) (digit : isdigit c = true) (enough : rest.length + 1 < fuel) :
    ∃ l', lexToken fuel l = .ok () l' ∧
      ((l.stderr.length < l'.stderr.length ∨
          l'.tokens = l.tokens ++ [⟨.int, some (literalText (c :: rest)), literalValue (c :: rest),
            ⟨l.ln, l.cn⟩⟩]) ↔
        (literalValue (c :: rest) < 2 ^ 64 ∨ InvalidOctal (c :: rest))) := by
  have space := isspace_eq_false isdigit (by decide +kernel) digit
  obtain ⟨reports, run, none_⟩ := lexToken_digits at_ space (digit_not_letter digit) digit enough
  obtain ⟨bad, lexeme, value⟩ := readsLiteral digit rest
  refine ⟨_, run, ?_⟩
  by_cases invalid : InvalidOctal (c :: rest)
  · have reported : reports ≠ [] := by
      rw [Ne, none_, bad.mpr invalid]
      exact Bool.noConfusion
    have longer : 0 < reports.length := List.length_pos_iff.mpr reported
    simp [invalid, longer]
  · have quiet : reports = [] := none_.mpr (Bool.eq_false_iff.mpr fun wrong => invalid (bad.mp wrong))
    have fits : min (literalValue (c :: rest)) (2 ^ 64 - 1) = literalValue (c :: rest) ↔
        literalValue (c :: rest) < 2 ^ 64 := by
      omega
    have read := value invalid
    rw [lexeme invalid] at read ⊢
    simp only [quiet, invalid, read, or_false, ← fits]
    simp

/-- `0x10000000000000000`, which is 2 ^ 64. -/
def bigLiteral : List UInt8 := (['0', 'x', '1'] ++ List.replicate 16 '0').map byte

theorem lexToken_literal_big :
    ∃ l', lexToken 32 (initLexer bigLiteral) = .ok () l' ∧
      (((initLexer bigLiteral).stderr.length < l'.stderr.length ∨
          l'.tokens = [⟨.int, some (literalText bigLiteral), literalValue bigLiteral, ⟨1, 1⟩⟩]) ↔
        (literalValue bigLiteral < 2 ^ 64 ∨ InvalidOctal bigLiteral)) :=
  lexToken_literal ⟨Nat.zero_le _, rfl⟩ (by decide) (by decide)

/-- The literal is read as the largest number, and no diagnostic is printed. -/
theorem lexer_saturates :
    literalValue bigLiteral = 2 ^ 64 ∧
      ∃ l, lexer (initLexer bigLiteral) = .ok () l ∧ l.stderr = [] ∧
        l.tokens = [⟨.int, some bigLiteral, 2 ^ 64 - 1, ⟨1, 1⟩⟩] := by
  refine ⟨by decide, _, rfl, rfl, ?_⟩
  decide

end Trident
