import Trident.Foundation.InPlace
import Trident.Foundation.Simulation
import Trident.Lexing.Scanners

/-! `get_string` with what it uses of the copy that `substr` makes: the second loop
decodes the copy in place, and a zero is written behind the contents. -/

set_option autoImplicit false

namespace Trident

open Foundation

/-- The lexer in `get_string`, with the number of bytes that `substr` has allocated
for the copy and the accesses to it since. -/
structure Copying where
  lexer : Lexer
  allocated : Nat := 0
  accesses : List Access := []

abbrev CopyM := EStateM Stop Copying

/-- The state after more accesses. -/
def Copying.after (copying : Copying) (accesses : List Access) : Copying :=
  { copying with accesses := copying.accesses ++ accesses }

@[simp] theorem Copying.after_after (copying : Copying) (first second : List Access) :
    (copying.after first).after second = copying.after (first ++ second) := by
  simp [after]

/-- The state in which a run ends, also when it exits. -/
def lastState {α : Type} : EStateM.Result Stop Copying α → Copying
  | .ok _ copying | .error _ copying => copying

/-- A step without an access to the copy. -/
def onLexer {α : Type} (action : LexM α) : CopyM α := fun copying =>
  match action copying.lexer with
  | .ok value lexer => .ok value { copying with lexer }
  | .error stop lexer => .error stop { copying with lexer }

/-- `string[r]`. -/
def readCopy (string : List UInt8) (r w : Nat) : CopyM UInt8 := do
  modify fun copying => copying.after [.read r w]
  onLexer (stringAt string r)

/-- `string[w] = c`. -/
def writeCopy (string : List UInt8) (r w : Nat) (c : UInt8) : CopyM (List UInt8) := do
  modify fun copying => copying.after [.write r w]
  return string.set w c

/-- `substr`, with the terminating zero. -/
def substrCopy (start end_ : Nat) : CopyM (List UInt8) := do
  let length := end_ - start
  modify fun copying => { copying with allocated := length + 1 }
  return (← onLexer (substr start end_)) ++ [0]

/-- The second loop of `get_string`. -/
def decodeCopy (strlen : Nat) :
    Nat → List UInt8 → Nat → Nat → CopyM (List UInt8 × Nat × Nat)
  | 0, _, _, _ => throw .fuel
  | fuel + 1, string, r, w => do
      if r < strlen then
        if (← readCopy string r w) = byte '*' then
          match escapeByte (← readCopy string (r + 1) w) with
          | some decoded =>
              let string ← writeCopy string (r + 1) w decoded
              decodeCopy strlen fuel string (r + 2) (w + 1)
          | none =>
              let c ← readCopy string (r + 1) w
              onLexer (lexReport fun position => .unknownEscape position c)
              throw .exit
        else
          let c ← readCopy string r w
          let string ← writeCopy string r w c
          decodeCopy strlen fuel string (r + 1) (w + 1)
      else
        return (string, r, w)

/-- `get_string`. -/
def getStringCopy (fuel : Nat) (q : UInt8) : CopyM Name := do
  onLexer consume
  let start := (← get).lexer.i
  onLexer (scanString q fuel)
  let string ← substrCopy start (← get).lexer.i
  onLexer consume
  let strlen := (← get).lexer.i - start
  let (string, r, w) ← decodeCopy strlen fuel string 0 0
  if q = byte '\'' ∧ w - 1 > 1 then
    onLexer (lexReport .characterTooLong)
  let string ← writeCopy string r w 0
  return string.take (w - 1)

section

variable {string rest : List UInt8} {strlen fuel r w : Nat} {c : UInt8} {copying : Copying}

private theorem onLexer_run {α : Type} {action : LexM α} {value : α} {l' : Lexer}
    (accepted : action copying.lexer = .ok value l') :
    onLexer action copying = .ok value { copying with lexer := l' } := by
  rw [onLexer, accepted]

private theorem onLexer_error {α : Type} {action : LexM α} {stop : Stop} {l' : Lexer}
    (rejected : action copying.lexer = .error stop l') :
    onLexer action copying = .error stop { copying with lexer := l' } := by
  rw [onLexer, rejected]

private theorem readCopy_run (found : string[r]? = some c) :
    readCopy string r w copying = .ok c (copying.after [.read r w]) := by
  rw [readCopy, bind_run_of_ok (modify_run _ _)]
  refine onLexer_run ?_
  rw [stringAt, found]
  rfl

private theorem writeCopy_run :
    writeCopy string r w c copying = .ok (string.set w c) (copying.after [.write r w]) := rfl

private theorem decodeCopy_byte (size : string.length = strlen) (unread : string.drop r = c :: rest)
    (plain : c ≠ byte '*') :
    decodeCopy strlen (fuel + 1) string r w copying =
      decodeCopy strlen fuel (string.set w c) (r + 1) (w + 1)
        (copying.after [.read r w, .read r w, .write r w]) := by
  have found := getElem?_of_drop unread
  rw [decodeCopy, if_pos (size ▸ lt_length_of_drop unread), bind_run_of_ok (readCopy_run found),
    if_neg plain, bind_run_of_ok (readCopy_run found), bind_run_of_ok writeCopy_run]
  simp

private theorem decodeCopy_escape (size : string.length = strlen)
    (unread : string.drop r = byte '*' :: c :: rest) {decoded : UInt8}
    (known : escapeByte c = some decoded) :
    decodeCopy strlen (fuel + 1) string r w copying =
      decodeCopy strlen fuel (string.set w decoded) (r + 2) (w + 1)
        (copying.after [.read r w, .read (r + 1) w, .write (r + 1) w]) := by
  have found := getElem?_of_drop (drop_succ unread)
  rw [decodeCopy, if_pos (size ▸ lt_length_of_drop unread),
    bind_run_of_ok (readCopy_run (getElem?_of_drop unread)), if_pos rfl,
    bind_run_of_ok (readCopy_run found), known]
  dsimp only
  rw [bind_run_of_ok writeCopy_run]
  simp

private theorem decodeCopy_unknown (size : string.length = strlen)
    (unread : string.drop r = byte '*' :: c :: rest) (unknown : escapeByte c = none)
    (fuel w : Nat) (copying : Copying) :
    ∃ lexer, decodeCopy strlen (fuel + 1) string r w copying = .error .exit
      { copying.after [.read r w, .read (r + 1) w, .read (r + 1) w] with lexer } := by
  have found := getElem?_of_drop (drop_succ unread)
  rw [decodeCopy, if_pos (size ▸ lt_length_of_drop unread),
    bind_run_of_ok (readCopy_run (getElem?_of_drop unread)), if_pos rfl,
    bind_run_of_ok (readCopy_run found), unknown]
  dsimp only
  rw [bind_run_of_ok (readCopy_run found), Copying.after_after, Copying.after_after]
  exact ⟨_, rfl⟩

/-- How the second loop ends at indices `r'` and `w'`. At the end of the copy `w'` is
smaller if there is slack; an unknown escape is only met where there is. -/
inductive Decoded (copying : Copying) (strlen : Nat) (accesses : List Access) (r' w' : Nat)
    (slack : Prop) : EStateM.Result Stop Copying (List UInt8 × Nat × Nat) → Prop where
  | ended {string'} : r' = strlen → (w' < strlen ↔ slack) →
      Decoded copying strlen accesses r' w' slack (.ok (string', r', w') (copying.after accesses))
  | unknown {lexer} : slack → Decoded copying strlen accesses r' w' slack
      (.error .exit { copying.after accesses with lexer })

theorem Decoded.prepend {first accesses : List Access} {r' w' : Nat} {slack : Prop}
    {result : EStateM.Result Stop Copying (List UInt8 × Nat × Nat)}
    (decoded : Decoded (copying.after first) strlen accesses r' w' slack result) :
    Decoded copying strlen (first ++ accesses) r' w' slack result := by
  cases decoded with
  | ended whole falls =>
      rw [Copying.after_after]
      exact .ended whole falls
  | unknown slack =>
      rw [Copying.after_after]
      exact .unknown slack

/-- The accesses of the second loop are those of a pass, in which `w` falls behind `r`
with the first escape. -/
private theorem decodeCopy_pass {q : UInt8} {text : List UInt8} (body : Body q text)
    (size : string.length = strlen) (unread : string.drop r = text ++ [0]) (behind : w ≤ r)
    (enough : text.length + 1 < fuel) (copying : Copying) :
    ∃ accesses r' w', Pass strlen r w accesses r' w' ∧
      Decoded copying strlen accesses r' w' (w < r ∨ byte '*' ∈ text)
        (decodeCopy strlen fuel string r w copying) := by
  induction body generalizing string r w fuel copying with
  | nil =>
      obtain ⟨fuel, rfl⟩ := Nat.exists_eq_add_of_le enough
      have less := size ▸ lt_length_of_drop unread
      have last : r + 1 = strlen := by
        refine Nat.le_antisymm less (size ▸ ?_)
        rw [← List.drop_eq_nil_iff, drop_succ unread]
      have steps : ([] : List UInt8).length + 1 + 1 + fuel = fuel + 1 + 1 := by
        rw [List.length_nil]
        omega
      refine ⟨_, _, _, .read less (.read less (.write less .stop)), ?_⟩
      rw [steps, decodeCopy_byte size unread (by decide), decodeCopy,
        if_neg (Nat.not_lt_of_le (Nat.le_of_eq last.symm))]
      exact .ended last (by simp [← last])
  | @byte c text different nonzero line plain body ih =>
      obtain ⟨fuel, rfl⟩ := Nat.exists_eq_succ_of_ne_zero (Nat.ne_zero_of_lt enough)
      have less := size ▸ lt_length_of_drop unread
      obtain ⟨accesses, r', w', pass, decoded⟩ := ih (by simpa using size)
        (drop_set_succ behind unread) (Nat.add_le_add_right behind 1) (Nat.lt_of_succ_lt_succ enough)
        (copying.after [.read r w, .read r w, .write r w])
      have slack : (w + 1 < r + 1 ∨ byte '*' ∈ text) = (w < r ∨ byte '*' ∈ c :: text) := by
        simp [plain.symm]
      rw [slack] at decoded
      refine ⟨_, r', w', .read less (.read less (.write less pass)), ?_⟩
      rw [decodeCopy_byte size unread plain]
      exact decoded.prepend
  | @escape c text nonzero line body ih =>
      obtain ⟨fuel, rfl⟩ := Nat.exists_eq_succ_of_ne_zero (Nat.ne_zero_of_lt enough)
      have less := size ▸ lt_length_of_drop unread
      have less' := size ▸ lt_length_of_drop (drop_succ unread)
      have star : byte '*' ∈ byte '*' :: c :: text := List.mem_cons_self
      cases known : escapeByte c with
      | none =>
          obtain ⟨lexer, run⟩ := decodeCopy_unknown size unread known fuel w copying
          refine ⟨_, _, _, .read less (.skip (.read less' (.read less' .stop))), ?_⟩
          rw [run]
          exact .unknown (.inr star)
      | some d =>
          have rest : (string.set w d).drop (r + 2) = text ++ [0] :=
            drop_set_succ (Nat.le_succ_of_le behind) (drop_succ unread)
          have fewer : text.length + 1 < fuel := by
            simp only [List.length_cons] at enough
            omega
          obtain ⟨accesses, r', w', pass, decoded⟩ := ih (by simpa using size) rest
            (Nat.le_succ_of_le (Nat.add_le_add_right behind 1)) fewer
            (copying.after [.read r w, .read (r + 1) w, .write (r + 1) w])
          have slack : (w + 1 < r + 2 ∨ byte '*' ∈ text) =
              (w < r ∨ byte '*' ∈ byte '*' :: c :: text) :=
            propext ⟨fun _ => .inr star,
              fun _ => .inl (Nat.lt_succ_of_le (Nat.succ_le_succ behind))⟩
          rw [slack] at decoded
          refine ⟨_, r', w', .read less (.skip (.read less' (.write less' pass))), ?_⟩
          rw [decodeCopy_escape size unread known]
          exact decoded.prepend

end

/-! Without its accesses, the run is the one of `getString`. -/

/-- The copying computation ends as the plain one does, with a result that `same` relates. -/
def CopiesAs {α β : Type} (same : α → β → Prop) (plain : LexM α) (copied : CopyM β) : Prop :=
  Simulates (fun _ => False) (fun l copying => copying.lexer = l)
    (fun l copying => copying.lexer = l) plain copied
    fun a b l copying => same a b ∧ copying.lexer = l

namespace CopiesAs

variable {α β γ δ : Type} {same : α → β → Prop} {last : γ → δ → Prop} {plain : LexM α}
  {copied : CopyM β} {string : List UInt8} {strlen r w : Nat} {c : UInt8}

theorem of_run (followed : ∀ copying : Copying, match plain copying.lexer with
      | .ok a l => ∃ b copying', copied copying = .ok b copying' ∧ same a b ∧ copying'.lexer = l
      | .error stop l => ∃ copying', copied copying = .error stop copying' ∧ copying'.lexer = l) :
    CopiesAs same plain copied := by
  rintro l copying rfl
  have run := followed copying
  cases result : plain copying.lexer with
  | ok a l => simpa [result] using run
  | error stop l => simpa [result] using run

theorem onLexer (action : LexM α) : CopiesAs Eq action (onLexer action) := by
  refine of_run fun copying => ?_
  rw [Trident.onLexer]
  cases action copying.lexer with
  | ok a l => exact ⟨a, _, rfl, rfl, rfl⟩
  | error stop l => exact ⟨_, rfl, rfl⟩

theorem bind {next : α → LexM γ} {next' : β → CopyM δ} (first : CopiesAs same plain copied)
    (second : ∀ a b, same a b → CopiesAs last (next a) (next' b)) :
    CopiesAs last (plain >>= next) (copied >>= next') := by
  refine Simulates.bind first fun a b => ?_
  rintro l copying ⟨related, lexer⟩
  exact second a b related l copying lexer

theorem pure {a : α} {b : β} (related : same a b) : CopiesAs same (pure a) (pure b) :=
  Simulates.pure fun _ _ lexer => ⟨related, lexer⟩

theorem throw (stop : Stop) : CopiesAs same (throw stop) (throw stop) :=
  Simulates.throw fun _ _ lexer => lexer

/-- An access that only the copying computation makes. -/
theorem extra {step : CopyM δ} {value : δ} {next : δ → CopyM β} {accesses : List Access}
    (runs : ∀ copying, step copying = .ok value (copying.after accesses))
    (rest : CopiesAs same plain (next value)) : CopiesAs same plain (step >>= next) := by
  rintro l copying lexer
  rw [bind_run_of_ok (runs copying)]
  exact rest l _ lexer

theorem get : CopiesAs (fun l copying => copying.lexer = l) get get :=
  of_run fun copying => ⟨copying, copying, rfl, rfl, rfl⟩

theorem stringAt : CopiesAs (fun a b => b = a ∧ string[r]? = some a) (stringAt string r)
    (readCopy string r w) := by
  refine of_run fun copying => ?_
  cases found : string[r]? with
  | none =>
      rw [readCopy, bind_run_of_ok (modify_run _ _), Trident.onLexer, Trident.stringAt, found]
      exact ⟨_, rfl, rfl⟩
  | some c =>
      rw [readCopy_run found, Trident.stringAt, found]
      exact ⟨c, _, rfl, ⟨rfl, rfl⟩, rfl⟩

theorem substr (start end_ : Nat) : CopiesAs (fun a b => b = a ++ [0]) (substr start end_)
    (substrCopy start end_) :=
  of_run fun _ => ⟨_, _, rfl, rfl, rfl⟩

theorem decodeString (strlen fuel : Nat) (string : List UInt8) (r w : Nat) :
    CopiesAs (fun a b => b.1 = a.1 ∧ b.2.2 = a.2) (decodeString strlen fuel string r w)
      (decodeCopy strlen fuel string r w) := by
  induction fuel generalizing string r w with
  | zero => exact throw _
  | succ fuel ih =>
      rw [Trident.decodeString, decodeCopy]
      by_cases inside : r < strlen
      · rw [if_pos inside, if_pos inside]
        refine stringAt.bind fun c c' read => ?_
        obtain ⟨rfl, found⟩ := read
        by_cases star : c' = byte '*'
        · rw [if_pos star, if_pos star]
          refine stringAt.bind fun d d' read => ?_
          obtain ⟨rfl, found'⟩ := read
          cases escapeByte d' with
          | some decoded => exact extra (fun _ => writeCopy_run) (ih _ _ _)
          | none =>
              exact extra (fun _ => readCopy_run found') ((onLexer _).bind fun _ _ _ => throw _)
        · rw [if_neg star, if_neg star]
          exact extra (fun _ => readCopy_run found) (extra (fun _ => writeCopy_run) (ih _ _ _))
      · rw [if_neg inside, if_neg inside]
        exact pure ⟨rfl, rfl⟩

end CopiesAs

/-- The accesses are those of `getString`: both end alike, with the same string. -/
theorem getString_copies (fuel : Nat) (q : UInt8) :
    CopiesAs Eq (getString fuel q) (getStringCopy fuel q) := by
  rw [getString, getStringCopy]
  refine (CopiesAs.onLexer _).bind fun _ _ _ => CopiesAs.get.bind fun _ before same => ?_
  obtain rfl := same
  refine (CopiesAs.onLexer _).bind fun _ _ _ => CopiesAs.get.bind fun _ after same => ?_
  obtain rfl := same
  refine (CopiesAs.substr _ _).bind fun _ _ same => ?_
  obtain rfl := same
  refine (CopiesAs.onLexer _).bind fun _ _ _ => CopiesAs.get.bind fun _ closed same => ?_
  obtain rfl := same
  refine (CopiesAs.decodeString _ _ _ _ _).bind fun a b same => ?_
  obtain ⟨string, w⟩ := a
  obtain ⟨string', r, w'⟩ := b
  obtain ⟨rfl, rfl⟩ := same
  dsimp only
  split
  · exact (CopiesAs.onLexer _).bind fun _ _ _ => .extra (fun _ => writeCopy_run) (.pure rfl)
  · exact .extra (fun _ => writeCopy_run) (.pure rfl)

section

variable {l : Lexer} {q : UInt8} {text more : List UInt8} {fuel : Nat}

/-- The lexer and the copy when `get_string` ends. -/
def stringCopy (fuel : Nat) (q : UInt8) (l : Lexer) : Copying :=
  lastState (getStringCopy fuel q { lexer := l })

/-- A literal whose spelling is known: the copy has a byte for each one of the spelling
and one for the zero, and only the zero behind the contents can be written outside. -/
private theorem getStringCopy_run (quote : IsQuote q) (body : Body q text)
    (at_ : l.At (q :: (text ++ q :: more))) (enough : text.length + 1 < fuel) :
    ∃ copying, stringCopy fuel q l = copying ∧
      copying.allocated = text.length + 1 ∧ Trailing copying.accesses ∧
      (InPlace copying.allocated copying.accesses ↔ byte '*' ∈ text) := by
  obtain ⟨scanned, copied⟩ := quoted_run quote body at_ (Nat.lt_of_succ_lt enough)
  set scan : Lexer := l.advance (text.length + 1) with scan_eq
  have length : scan.i - (l.advance 1).i = text.length := by
    simp only [scan_eq, Lexer.advance]
    omega
  have strlen : (scan.advance 1).i - (l.advance 1).i = text.length + 1 := by
    simp only [scan_eq, Lexer.advance]
    omega
  have size : (text ++ [0]).length = text.length + 1 := List.length_append
  have made : substrCopy (l.advance 1).i scan.i { lexer := scan } =
      .ok (text ++ [0]) ⟨scan, text.length + 1, []⟩ := by
    rw [substrCopy, length, bind_run_of_ok (modify_run _ _), bind_run_of_ok (onLexer_run copied)]
    rfl
  obtain ⟨accesses, r', w', pass, decoded⟩ := decodeCopy_pass body size rfl (Nat.le_refl 0) enough
    ⟨scan.advance 1, text.length + 1, []⟩
  simp only [Nat.lt_irrefl, false_or] at decoded
  rw [stringCopy, getStringCopy, bind_run_of_ok (onLexer_run (consume_run _)),
    bind_run_of_ok (get_run _), bind_run_of_ok (onLexer_run scanned), bind_run_of_ok (get_run _),
    bind_run_of_ok made, bind_run_of_ok (onLexer_run (consume_run _)), bind_run_of_ok (get_run _),
    strlen]
  have whole := pass.inPlace (Nat.le_refl 0)
  cases run : decodeCopy (text.length + 1) fuel (text ++ [0]) 0 0
      ⟨scan.advance 1, text.length + 1, []⟩ with
  | error stop last =>
      rw [run] at decoded
      cases decoded with
      | unknown star =>
          rw [bind_run_of_error run]
          exact ⟨_, rfl, rfl, whole.toTrailing, fun _ => star, fun _ => whole⟩
  | ok result last =>
      rw [run] at decoded
      cases decoded with
      | ended ended falls =>
          have behind : w' ≤ r' := (pass.w_le (Nat.le_refl 0)).2
          have final : InPlace (text.length + 1) (accesses ++ [.write r' w']) ↔ byte '*' ∈ text :=
            (whole.write_iff behind).trans falls
          rw [bind_run_of_ok run]
          dsimp only
          by_cases long : q = byte '\'' ∧ w' - 1 > 1
          · rw [if_pos long]
            exact ⟨_, rfl, rfl, whole.write behind, final⟩
          · rw [if_neg long]
            exact ⟨_, rfl, rfl, whole.write behind, final⟩

/-- Without its closing quote on the line, a literal is not copied. -/
private theorem getStringCopy_unterminated {l' : Lexer}
    (rejected : scanString q fuel (l.advance 1) = .error .exit l') :
    stringCopy fuel q l = { lexer := l' } := by
  rw [stringCopy, getStringCopy, bind_run_of_ok (onLexer_run (consume_run _)),
    bind_run_of_ok (get_run _), bind_run_of_error (onLexer_error rejected)]
  rfl

/-- `get_string` stays in the copy if and only if the literal is unterminated or its
spelling has an escape. In any case its write index stays behind the read index, and
no byte is overwritten before it is read. -/
theorem getString_inPlace_iff (quote : IsQuote q) (at_ : l.At (q :: text))
    (enough : text.length < fuel) :
    Trailing (stringCopy fuel q l).accesses ∧
      (InPlace (stringCopy fuel q l).allocated (stringCopy fuel q l).accesses ↔
        ∀ body more, text = body ++ q :: more → Body q body → byte '*' ∈ body) := by
  have fits {body more : List UInt8} (split : text = body ++ q :: more) :
      body.length + 1 < fuel := by
    rw [split, List.length_append, List.length_cons] at enough
    omega
  obtain ⟨body, more, rfl, spelled⟩ | ⟨l', rejected, -⟩ :=
    scanString_outcome quote at_.next enough
  · obtain ⟨copying, last, -, trailing, stays⟩ := getStringCopy_run quote spelled at_ (fits rfl)
    rw [last]
    refine ⟨trailing, fun inPlace body' more' split spelled' => ?_, fun all => ?_⟩
    · obtain ⟨copying', last', -, -, stays'⟩ :=
        getStringCopy_run quote spelled' (split ▸ at_) (fits split)
      obtain rfl := last.symm.trans last'
      exact stays'.mp inPlace
    · exact stays.mpr (all body more rfl spelled)
  · rw [getStringCopy_unterminated rejected]
    have trailing : Trailing [] := ⟨List.forall_mem_nil _, .nil⟩
    refine ⟨trailing, fun _ body more split spelled => ?_,
      fun _ => ⟨trailing, List.forall_mem_nil _⟩⟩
    have accepted := scanString_run quote spelled (split ▸ at_.next)
      (Nat.lt_of_succ_lt (fits split))
    cases rejected.symm.trans accepted

end

/-- `"a*n"` -/
theorem getString_inPlace_newline :
    InPlace (stringCopy 7 (byte '"') (initLexer [34, 97, 42, 110, 34])).allocated
      (stringCopy 7 (byte '"') (initLexer [34, 97, 42, 110, 34])).accesses := by
  have quote : IsQuote (byte '"') := ⟨by decide, by decide⟩
  have at_ : (initLexer [34, 97, 42, 110, 34]).At (byte '"' :: [97, 42, 110, 34]) :=
    ⟨by decide, rfl⟩
  refine (getString_inPlace_iff quote at_ (by decide)).2.mpr fun body more split _ => ?_
  obtain _ | ⟨c, _ | ⟨d, body⟩⟩ := body <;> simp_all [byte]

/-- The zero behind the empty literal is written after the end of the copy. -/
theorem getString_empty_outside :
    ¬ InPlace (stringCopy 4 (byte '"') (initLexer [34, 34])).allocated
      (stringCopy 4 (byte '"') (initLexer [34, 34])).accesses := by
  intro inPlace
  have last := inPlace.within (.write 1 1) (by decide +kernel)
  exact absurd last (by decide +kernel)

end Trident
