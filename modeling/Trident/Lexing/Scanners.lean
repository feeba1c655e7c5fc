import Trident.Lexer
import Trident.Foundation.StateResult
import Mathlib.Data.List.TakeWhile

/-! What each scanner of the lexer does at a given text: where it stops, and what
it returns. -/

set_option autoImplicit false

namespace Trident

open Foundation

theorem forall_bytes {P : UInt8 → Prop} (all : ∀ k < 256, P (UInt8.ofNat k)) (c : UInt8) : P c := by
  have found := all c.toNat c.toNat_lt
  rwa [UInt8.ofNat_toNat] at found

/-- The position behind a byte. -/
def Position.next (position : Position) (c : UInt8) : Position :=
  if c = byte '\n' then ⟨position.ln + 1, 1⟩ else ⟨position.ln, position.cn + 1⟩

def Position.across (position : Position) (text : List UInt8) : Position := text.foldl Position.next position

theorem Position.across_cons (position : Position) (c : UInt8) (text : List UInt8) :
    position.across (c :: text) = (position.next c).across text := rfl

theorem Position.across_append (position : Position) (text more : List UInt8) :
    position.across (text ++ more) = (position.across text).across more := List.foldl_append

theorem Position.across_line {text : List UInt8} (line : ∀ c ∈ text, c ≠ byte '\n')
    (position : Position) : position.across text = ⟨position.ln, position.cn + text.length⟩ := by
  induction text generalizing position with
  | nil => rfl
  | cons c text ih =>
      obtain ⟨first, later⟩ := List.forall_mem_cons.mp line
      rw [across_cons, ih later, next, if_neg first, List.length_cons]
      simp only [Position.mk.injEq, true_and]
      omega

/-- The text that is not read yet. -/
structure Lexer.At (l : Lexer) (text : List UInt8) : Prop where
  within : l.i ≤ l.buffer.length
  rest : l.buffer.drop l.i = text

/-- `count` bytes later on the same line. -/
def Lexer.advance (l : Lexer) (count : Nat) : Lexer :=
  { l with i := l.i + count, cn := l.cn + count }

@[simp] theorem Lexer.advance_zero (l : Lexer) : l.advance 0 = l := rfl

@[simp] theorem Lexer.advance_advance (l : Lexer) (first second : Nat) :
    (l.advance first).advance second = l.advance (first + second) := by
  simp [Lexer.advance, Nat.add_assoc]

/-- The counters of the lexer. -/
def Lexer.position (l : Lexer) : Position := ⟨l.ln, l.cn⟩

/-- Behind `text`, wherever its newlines are. -/
def Lexer.past (l : Lexer) (text : List UInt8) : Lexer :=
  { l with
    i := l.i + text.length, ln := (l.position.across text).ln, cn := (l.position.across text).cn }

theorem consume_run (l : Lexer) : consume l = .ok () (l.advance 1) := rfl

namespace Lexer.At

variable {l : Lexer} {text more : List UInt8} {c : UInt8}

theorem of_i {l' : Lexer} (at_ : l.At text) (buffer : l'.buffer = l.buffer) (i : l'.i = l.i) :
    l'.At text where
  within := by rw [buffer, i]; exact at_.within
  rest := by rw [buffer, i]; exact at_.rest

theorem move {l' : Lexer} (at_ : l.At (text ++ more)) (buffer : l'.buffer = l.buffer)
    (i : l'.i = l.i + text.length) : l'.At more where
  within := by
    have length := congrArg List.length at_.rest
    rw [List.length_drop, List.length_append] at length
    have within := at_.within
    rw [buffer, i]
    omega
  rest := by
    rw [buffer, i, ← List.drop_drop, at_.rest, List.drop_left]

theorem next (at_ : l.At (c :: more)) : (l.advance 1).At more :=
  at_.move (show (l.advance 1).buffer = l.buffer from rfl) (show _ = l.i + [c].length from rfl)

theorem peak_run {offset : Nat} (at_ : l.At text) (found : (text ++ [0])[offset]? = some c) :
    peak offset l = .ok c l := by
  have same : (l.buffer ++ [0])[l.i + offset]? = some c := by
    rw [← List.getElem?_drop, List.drop_append_of_le_length at_.within, at_.rest, found]
  rw [peak, bind_run_of_ok (get_run _), same]
  rfl

theorem peak_zero (at_ : l.At text) : peak 0 l = .ok (text.headD 0) l := by
  refine at_.peak_run ?_
  cases text <;> rfl

theorem peak_one (at_ : l.At (c :: more)) : peak 1 l = .ok (more.headD 0) l := by
  refine at_.peak_run ?_
  cases more <;> rfl

end Lexer.At

section Bytes

variable {text more : List UInt8} {l : Lexer} {fuel : Nat}

private theorem strncpy_append (nonzero : ∀ c ∈ text, c ≠ 0) :
    strncpy (text ++ more) text.length = text := by
  have copied : text.takeWhile (· ≠ 0) = text :=
    List.takeWhile_eq_self_iff.mpr fun c member => decide_eq_true (nonzero c member)
  rw [strncpy, List.take_left, copied, Nat.sub_self]
  exact List.append_nil _

/-- Copying what was read since `l`. -/
theorem substr_run (at_ : l.At (text ++ more)) (nonzero : ∀ c ∈ text, c ≠ 0) {l' : Lexer}
    (buffer : l'.buffer = l.buffer) (i : l'.i = l.i + text.length) :
    substr l.i l'.i l' = .ok text l' := by
  rw [substr, bind_run_of_ok (get_run _), buffer, at_.rest, i, Nat.add_sub_cancel_left,
    strncpy_append nonzero]
  rfl

theorem consumeWhile_run {test : UInt8 → Bool} (at_ : l.At (text ++ more))
    (all : ∀ c ∈ text, test c) (stops : test (more.headD 0) = false)
    (enough : text.length < fuel) :
    consumeWhile test fuel l = .ok () (l.advance text.length) := by
  induction fuel generalizing l text with
  | zero => cases enough
  | succ fuel ih =>
      rw [consumeWhile, bind_run_of_ok at_.peak_zero]
      cases text with
      | nil =>
          rw [List.nil_append, stops]
          rfl
      | cons c text =>
          have passes : test ((c :: text ++ more).headD 0) := all c List.mem_cons_self
          rw [if_pos passes, bind_run_of_ok (consume_run _),
            ih at_.next (fun c member => all c (List.mem_cons_of_mem _ member))
              (Nat.lt_of_succ_lt_succ enough), Lexer.advance_advance, Nat.add_comm]
          rfl

end Bytes

/-- The bytes of an identifier or a keyword. -/
def isWordByte (c : UInt8) : Bool := isalnum c || c == byte '_'

section

variable {text more : List UInt8} {l : Lexer} {fuel : Nat}

theorem ne_of_test {test : UInt8 → Bool} {d : UInt8} (stops : test d = false)
    (all : ∀ c ∈ text, test c) : ∀ c ∈ text, c ≠ d := by
  rintro c member rfl
  have passes := all c member
  rw [stops] at passes
  cases passes

theorem getWord_run (at_ : l.At (text ++ more)) (all : ∀ c ∈ text, isWordByte c)
    (stops : isWordByte (more.headD 0) = false) (enough : text.length < fuel) :
    getWord fuel l = .ok text (l.advance text.length) := by
  have scanned : consumeWhile (fun c => isalnum c || c == byte '_') fuel l = _ :=
    consumeWhile_run at_ all stops enough
  rw [getWord, bind_run_of_ok (get_run _), bind_run_of_ok scanned, bind_run_of_ok (get_run _)]
  exact substr_run at_ (ne_of_test rfl all) rfl rfl

/-- The spelling of the contents of a literal in quotes `q`: an escape takes two
bytes, and the literal does not go over the end of the line. -/
inductive Body (q : UInt8) : List UInt8 → Prop where
  | nil : Body q []
  | byte {c body} : c ≠ q → c ≠ 0 → c ≠ Trident.byte '\n' → c ≠ Trident.byte '*' → Body q body →
      Body q (c :: body)
  | escape {c body} : c ≠ 0 → c ≠ Trident.byte '\n' → Body q body →
      Body q (Trident.byte '*' :: c :: body)

/-- The contents that a spelling stands for. -/
def decodeBody : List UInt8 → Option (List UInt8)
  | [] => some []
  | [c] => if c = byte '*' then none else some [c]
  | c :: d :: rest =>
      if c = byte '*' then (escapeByte d).bind fun decoded => (decodeBody rest).map (decoded :: ·)
      else (decodeBody (d :: rest)).map (c :: ·)

theorem decodeBody_cons {c : UInt8} (plain : c ≠ byte '*') (rest : List UInt8) :
    decodeBody (c :: rest) = (decodeBody rest).map (c :: ·) := by
  cases rest with
  | nil => simp [decodeBody, plain]
  | cons d rest => rw [decodeBody, if_neg plain]

theorem decodeBody_escape (c : UInt8) (rest : List UInt8) :
    decodeBody (byte '*' :: c :: rest) =
      (escapeByte c).bind fun decoded => (decodeBody rest).map (decoded :: ·) := by
  rw [decodeBody, if_pos rfl]

theorem Body.bytes {q : UInt8} (body : Body q text) : ∀ c ∈ text, c ≠ 0 ∧ c ≠ Trident.byte '\n' := by
  induction body with
  | nil => exact List.forall_mem_nil _
  | byte _ nonzero line _ _ ih => exact List.forall_mem_cons.mpr ⟨⟨nonzero, line⟩, ih⟩
  | escape nonzero line _ ih =>
      have star : Trident.byte '*' ≠ 0 ∧ Trident.byte '*' ≠ Trident.byte '\n' := by decide
      exact List.forall_mem_cons.mpr ⟨star, List.forall_mem_cons.mpr ⟨⟨nonzero, line⟩, ih⟩⟩

theorem Body.nonzero {q : UInt8} (body : Body q text) : ∀ c ∈ text, c ≠ 0 :=
  fun c member => (body.bytes c member).1

/-- A byte that can be a quote. -/
structure IsQuote (q : UInt8) : Prop where
  nonzero : q ≠ 0
  plain : q ≠ byte '*'

section

variable {q c : UInt8}

private theorem scanString_quote (at_ : l.At (q :: more)) : scanString q (fuel + 1) l = .ok () l := by
  rw [scanString, bind_run_of_ok at_.peak_zero, if_neg (fun different => different rfl)]
  rfl

private theorem scanString_byte (at_ : l.At (c :: more)) (different : c ≠ q)
    (inside : ¬ (c = 0 ∨ c = byte '\n')) (plain : c ≠ byte '*') :
    scanString q (fuel + 1) l = scanString q fuel (l.advance 1) := by
  rw [scanString, bind_run_of_ok at_.peak_zero, List.headD_cons, if_pos different]
  dsimp only
  rw [if_neg inside, if_neg plain, bind_run_of_ok (consume_run _)]

private theorem scanString_escape (at_ : l.At (byte '*' :: c :: more)) (different : byte '*' ≠ q)
    (inside : ¬ (c = 0 ∨ c = byte '\n')) :
    scanString q (fuel + 1) l = scanString q fuel (l.advance 2) := by
  rw [scanString, bind_run_of_ok at_.peak_zero, List.headD_cons, if_pos different]
  dsimp only
  rw [if_neg (by decide), if_pos rfl, bind_run_of_ok (consume_run _),
    bind_run_of_ok at_.next.peak_zero, List.headD_cons, if_neg inside,
    bind_run_of_ok (consume_run _), Lexer.advance_advance]

/-- How the first loop of `get_string` stops at the end of a line or of the input. -/
def Unterminated (l l' : Lexer) : Prop :=
  l'.stderr = l.stderr ++ [.unterminatedLiteral ⟨l.ln, l.tCn⟩] ∨
    l'.stderr = l.stderr ++ [.unterminatedEscape ⟨l.ln, l.tCn⟩]

private theorem scanString_end (at_ : l.At text) (different : text.headD 0 ≠ q)
    (outside : text.headD 0 = 0 ∨ text.headD 0 = byte '\n') :
    ∃ l', scanString q (fuel + 1) l = .error .exit l' ∧ Unterminated l l' := by
  rw [scanString, bind_run_of_ok at_.peak_zero, if_pos different]
  dsimp only
  rw [if_pos outside]
  exact ⟨_, rfl, .inl rfl⟩

private theorem scanString_escapeEnd (at_ : l.At (byte '*' :: text)) (different : byte '*' ≠ q)
    (outside : text.headD 0 = 0 ∨ text.headD 0 = byte '\n') :
    ∃ l', scanString q (fuel + 1) l = .error .exit l' ∧ Unterminated l l' := by
  rw [scanString, bind_run_of_ok at_.peak_zero, List.headD_cons, if_pos different]
  dsimp only
  rw [if_neg (by decide), if_pos rfl, bind_run_of_ok (consume_run _),
    bind_run_of_ok at_.next.peak_zero, if_pos outside]
  exact ⟨_, rfl, .inr rfl⟩

theorem scanString_run (quote : IsQuote q) (body : Body q text) (at_ : l.At (text ++ q :: more))
    (enough : text.length < fuel) :
    scanString q fuel l = .ok () (l.advance text.length) := by
  induction body generalizing l fuel with
  | nil =>
      obtain ⟨fuel, rfl⟩ := Nat.exists_eq_succ_of_ne_zero (Nat.ne_zero_of_lt enough)
      exact scanString_quote at_
  | @byte c body different nonzero line plain _ ih =>
      obtain ⟨fuel, rfl⟩ := Nat.exists_eq_succ_of_ne_zero (Nat.ne_zero_of_lt enough)
      have rest : (l.advance 1).At (body ++ q :: more) := Lexer.At.next at_
      rw [scanString_byte at_ different (not_or.mpr ⟨nonzero, line⟩) plain,
        ih rest (Nat.lt_of_succ_lt_succ enough), Lexer.advance_advance, Nat.add_comm]
      rfl
  | @escape c body nonzero line _ ih =>
      obtain ⟨fuel, rfl⟩ := Nat.exists_eq_succ_of_ne_zero (Nat.ne_zero_of_lt enough)
      have rest : (l.advance 2).At (body ++ q :: more) := Lexer.At.next (Lexer.At.next at_)
      have shorter : body.length < fuel := by
        simp only [List.length_cons] at enough
        omega
      rw [scanString_escape at_ quote.plain.symm (not_or.mpr ⟨nonzero, line⟩), ih rest shorter,
        Lexer.advance_advance, Nat.add_comm]
      rfl

/-- A quote is found, or the literal is unterminated. -/
theorem scanString_outcome (quote : IsQuote q) (at_ : l.At text) (enough : text.length < fuel) :
    (∃ body more, text = body ++ q :: more ∧ Body q body) ∨
      ∃ l', scanString q fuel l = .error .exit l' ∧ Unterminated l l' := by
  induction fuel generalizing l text with
  | zero => cases enough
  | succ fuel ih =>
      cases text with
      | nil => exact .inr (scanString_end at_ quote.nonzero.symm (.inl rfl))
      | cons c rest =>
          by_cases closes : c = q
          · exact .inl ⟨[], rest, by rw [closes]; rfl, .nil⟩
          by_cases outside : c = 0 ∨ c = byte '\n'
          · exact .inr (scanString_end at_ closes outside)
          obtain ⟨nonzero, line⟩ := not_or.mp outside
          by_cases escaped : c = byte '*'
          · subst escaped
            by_cases ended : rest.headD 0 = 0 ∨ rest.headD 0 = byte '\n'
            · exact .inr (scanString_escapeEnd at_ closes ended)
            cases rest with
            | nil => exact absurd (.inl rfl) ended
            | cons d rest =>
                obtain ⟨nonzero', line'⟩ := not_or.mp ended
                have shorter : rest.length < fuel := by
                  simp only [List.length_cons] at enough
                  omega
                rw [scanString_escape at_ closes ended]
                rcases ih at_.next.next shorter with ⟨body, more, rfl, valid⟩ | stopped
                · exact .inl ⟨_, more, rfl, .escape nonzero' line' valid⟩
                · exact .inr stopped
          · rw [scanString_byte at_ closes outside escaped]
            rcases ih at_.next (Nat.lt_of_succ_lt_succ enough) with ⟨body, more, rfl, valid⟩ | stopped
            · exact .inl ⟨_, more, rfl, .byte closes nonzero line escaped valid⟩
            · exact .inr stopped

end

section

variable {string rest : List UInt8} {strlen r w : Nat} {c : UInt8}

theorem getElem?_of_drop (unread : string.drop r = c :: rest) : string[r]? = some c := by
  rw [← Nat.add_zero r, ← List.getElem?_drop, unread]
  rfl

private theorem stringAt_run (unread : string.drop r = c :: rest) : stringAt string r l = .ok c l := by
  rw [stringAt, getElem?_of_drop unread]
  rfl

theorem lt_length_of_drop (unread : string.drop r = c :: rest) : r < string.length := by
  by_contra outside
  rw [List.drop_eq_nil_of_le (Nat.le_of_not_lt outside)] at unread
  cases unread

theorem drop_succ (unread : string.drop r = c :: rest) : string.drop (r + 1) = rest := by
  rw [← List.drop_drop, unread]
  rfl

/-- What is still to be read is not touched by a write at or behind the read index. -/
theorem drop_set_succ {d : UInt8} (behind : w ≤ r) (unread : string.drop r = c :: rest) :
    (string.set w d).drop (r + 1) = rest := by
  rw [List.drop_set_of_lt (Nat.lt_succ_of_le behind), drop_succ unread]

private theorem decodeString_byte (size : string.length = strlen) (unread : string.drop r = c :: rest)
    (plain : c ≠ byte '*') :
    decodeString strlen (fuel + 1) string r w l =
      decodeString strlen fuel (string.set w c) (r + 1) (w + 1) l := by
  rw [decodeString, if_pos (size ▸ lt_length_of_drop unread), bind_run_of_ok (stringAt_run unread),
    if_neg plain]

private theorem decodeString_escape (size : string.length = strlen)
    (unread : string.drop r = byte '*' :: c :: rest) :
    decodeString strlen (fuel + 1) string r w l =
      match escapeByte c with
      | some decoded => decodeString strlen fuel (string.set w decoded) (r + 2) (w + 1) l
      | none =>
          .error .exit { l with stderr := l.stderr ++ [.unknownEscape ⟨l.ln, l.tCn⟩ c] } := by
  rw [decodeString, if_pos (size ▸ lt_length_of_drop unread), bind_run_of_ok (stringAt_run unread),
    if_pos rfl, bind_run_of_ok (stringAt_run (drop_succ unread))]
  cases escapeByte c <;> rfl

private theorem take_set_succ (small : w < string.length) :
    (string.set w c).take (w + 1) = string.take w ++ [c] := by
  rw [List.take_succ_eq_append_getElem (by simpa using small), List.take_set_of_le (Nat.le_refl w)]
  simp

/-- Decoding in place never overwrites what is still to be read; the zero behind
the contents is copied last. -/
private theorem decodeString_run {q : UInt8} (body : Body q text) (size : string.length = strlen)
    (unread : string.drop r = text ++ [0]) (behind : w ≤ r) (enough : text.length + 1 < fuel) :
    (∀ decoded, decodeBody text = some decoded → ∃ string',
      decodeString strlen fuel string r w l = .ok (string', w + decoded.length + 1) l ∧
        string'.take (w + decoded.length) = string.take w ++ decoded ∧ string'.length = strlen) ∧
    (decodeBody text = none → ∃ c, decodeString strlen fuel string r w l =
      .error .exit { l with stderr := l.stderr ++ [.unknownEscape ⟨l.ln, l.tCn⟩ c] }) := by
  induction body generalizing string r w fuel with
  | nil =>
      obtain ⟨fuel, rfl⟩ := Nat.exists_eq_add_of_le enough
      have less := lt_length_of_drop unread
      have last : string.length ≤ r + 1 := by
        rw [← List.drop_eq_nil_iff, drop_succ unread]
      refine ⟨fun decoded same => ?_, nofun⟩
      cases same
      refine ⟨string.set w 0, ?_, ?_, by simpa using size⟩
      · have steps : ([] : List UInt8).length + 1 + 1 + fuel = fuel + 1 + 1 := by
          rw [List.length_nil]
          omega
        rw [steps, decodeString_byte size unread (by decide), decodeString,
          if_neg (Nat.not_lt_of_le (size ▸ last))]
        rfl
      · rw [List.length_nil, Nat.add_zero, List.append_nil, List.take_set_of_le (Nat.le_refl w)]
  | @byte c text different nonzero line plain body ih =>
      obtain ⟨fuel, rfl⟩ := Nat.exists_eq_succ_of_ne_zero (Nat.ne_zero_of_lt enough)
      have less := lt_length_of_drop unread
      obtain ⟨found, failed⟩ := ih (by simpa using size) (drop_set_succ behind unread)
        (Nat.add_le_add_right behind 1) (Nat.lt_of_succ_lt_succ enough)
      rw [decodeString_byte size unread plain, decodeBody_cons plain]
      refine ⟨fun decoded same => ?_, fun same => failed (Option.map_eq_none_iff.mp same)⟩
      obtain ⟨decoded, inner, rfl⟩ := Option.map_eq_some_iff.mp same
      obtain ⟨string', run, taken, size'⟩ := found decoded inner
      have count : w + (c :: decoded).length = w + 1 + decoded.length :=
        (Nat.succ_add_eq_add_succ w decoded.length).symm
      refine ⟨string', by rw [run, count], ?_, size'⟩
      · rw [count, taken, take_set_succ (Nat.lt_of_le_of_lt behind less), List.append_assoc]
        rfl
  | @escape c text nonzero line body ih =>
      obtain ⟨fuel, rfl⟩ := Nat.exists_eq_succ_of_ne_zero (Nat.ne_zero_of_lt enough)
      have less := lt_length_of_drop unread
      rw [decodeString_escape size unread, decodeBody_escape]
      cases decoding : escapeByte c with
      | none =>
          refine ⟨fun decoded same => ?_, fun _ => ⟨c, rfl⟩⟩
          cases same
      | some d =>
          have rest : (string.set w d).drop (r + 2) = text ++ [0] :=
            drop_set_succ (Nat.le_succ_of_le behind) (drop_succ unread)
          have fewer : text.length + 1 < fuel := by
            simp only [List.length_cons] at enough
            omega
          obtain ⟨found, failed⟩ := ih (by simpa using size) rest
            (Nat.le_succ_of_le (Nat.add_le_add_right behind 1)) fewer
          refine ⟨fun decoded same => ?_, fun same => failed (Option.map_eq_none_iff.mp same)⟩
          obtain ⟨decoded, inner, rfl⟩ := Option.map_eq_some_iff.mp same
          obtain ⟨string', run, taken, size'⟩ := found decoded inner
          have count : w + (d :: decoded).length = w + 1 + decoded.length :=
            (Nat.succ_add_eq_add_succ w decoded.length).symm
          refine ⟨string', ?_, ?_, size'⟩
          · rw [count]
            exact run
          · rw [count, taken, take_set_succ (Nat.lt_of_le_of_lt behind less), List.append_assoc]
            rfl

end

variable {q : UInt8}

/-- The first loop of `get_string` over a spelling, and the copy of it. -/
theorem quoted_run (quote : IsQuote q) (body : Body q text)
    (at_ : l.At (q :: (text ++ q :: more))) (enough : text.length < fuel) :
    scanString q fuel (l.advance 1) = .ok () (l.advance (text.length + 1)) ∧
      substr (l.advance 1).i (l.advance (text.length + 1)).i (l.advance (text.length + 1)) =
        .ok text (l.advance (text.length + 1)) := by
  have inner := at_.next
  have scanned := scanString_run quote body inner enough
  rw [Lexer.advance_advance, Nat.add_comm 1] at scanned
  refine ⟨scanned, substr_run inner body.nonzero rfl ?_⟩
  simp only [Lexer.advance]
  omega

/-- A literal whose spelling is known. -/
theorem getString_run (quote : IsQuote q) (body : Body q text)
    (at_ : l.At (q :: (text ++ q :: more))) (enough : text.length + 1 < fuel) :
    (∀ decoded, decodeBody text = some decoded → ∃ stderr,
      getString fuel q l = .ok decoded { l.advance (text.length + 2) with stderr } ∧
        (q ≠ byte '\'' → stderr = l.stderr)) ∧
    (decodeBody text = none → ∃ l' c, getString fuel q l = .error .exit l' ∧
      l'.stderr = l.stderr ++ [.unknownEscape ⟨l.ln, l.tCn⟩ c]) := by
  obtain ⟨scanned, copied⟩ := quoted_run quote body at_ (Nat.lt_of_succ_lt enough)
  have strlen : (l.advance (text.length + 2)).i - (l.advance 1).i = text.length + 1 := by
    simp only [Lexer.advance]
    omega
  have size : (text ++ [0]).length = text.length + 1 := List.length_append
  obtain ⟨found, failed⟩ := decodeString_run body size rfl (Nat.le_refl 0) enough
  rw [getString, bind_run_of_ok (consume_run _), bind_run_of_ok (get_run _),
    bind_run_of_ok scanned, bind_run_of_ok (get_run _), bind_run_of_ok copied,
    bind_run_of_ok (consume_run _), bind_run_of_ok (get_run _), Lexer.advance_advance, strlen]
  refine ⟨fun decoded same => ?_, fun same => ?_⟩
  · obtain ⟨string', run, taken, size'⟩ := found decoded same
    have result : (string'.set (0 + decoded.length + 1) 0).take (0 + decoded.length + 1 - 1) =
        decoded := by
      rw [Nat.add_sub_cancel, List.take_set_of_le (Nat.le_succ _), taken]
      rfl
    rw [bind_run_of_ok run]
    dsimp only
    rw [result]
    by_cases long : q = byte '\'' ∧ 0 + decoded.length + 1 - 1 > 1
    · rw [if_pos long]
      exact ⟨_, rfl, fun different => absurd long.1 different⟩
    · rw [if_neg long]
      exact ⟨_, rfl, fun _ => rfl⟩
  · obtain ⟨c, run⟩ := failed same
    exact ⟨_, c, bind_run_of_error run, rfl⟩

/-- A literal is complete, or `get_string` ends the run. -/
theorem getString_outcome (quote : IsQuote q) (at_ : l.At (q :: text))
    (enough : text.length < fuel) :
    (∃ body more, text = body ++ q :: more ∧ Body q body) ∨
      ∃ l', getString fuel q l = .error .exit l' ∧ Unterminated l l' := by
  rcases scanString_outcome quote at_.next enough with found | ⟨l', rejected, stopped⟩
  · exact .inl found
  · refine .inr ⟨l', ?_, stopped⟩
    rw [getString, bind_run_of_ok (consume_run _), bind_run_of_ok (get_run _)]
    exact bind_run_of_error rejected

end

end Trident
