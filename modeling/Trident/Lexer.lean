import Trident.Diagnostics

/-! The lexer, from `lexer.c`. Its loops take a bound on the number of their
iterations. The keyword table is the one `keywords.gperf` describes, and the
character classes are those of the C locale. -/

set_option autoImplicit false

namespace Trident

/-- The byte of an ASCII character. -/
def byte (c : Char) : UInt8 := c.toNat.toUInt8

def isspace (c : UInt8) : Bool := c == 32 || (9 ≤ c && c ≤ 13)
def isdigit (c : UInt8) : Bool := byte '0' ≤ c && c ≤ byte '9'
def isalpha (c : UInt8) : Bool :=
  (byte 'a' ≤ c && c ≤ byte 'z') || (byte 'A' ≤ c && c ≤ byte 'Z')
def isalnum (c : UInt8) : Bool := isalpha c || isdigit c
def isxdigit (c : UInt8) : Bool :=
  isdigit c || (byte 'a' ≤ c && c ≤ byte 'f') || (byte 'A' ≤ c && c ≤ byte 'F')
def isoctal (c : UInt8) : Bool := 0x30 ≤ c && c ≤ 0x37

/-- The table of `keywords.gperf`. -/
def getKeywordKind (word : Name) : Option TokenKind :=
  [(['e', 'x', 't', 'r', 'n'], TokenKind.extrn), (['a', 'u', 't', 'o'], .auto),
    (['i', 'f'], .if_), (['e', 'l', 's', 'e'], .else_), (['w', 'h', 'i', 'l', 'e'], .while_),
    (['g', 'o', 't', 'o'], .goto), (['r', 'e', 't', 'u', 'r', 'n'], .return_)].findSome?
      fun keyword => if keyword.1.map byte = word then some keyword.2 else none

/-- The value of a digit in bases up to sixteen. -/
def digitValue (c : UInt8) : Nat :=
  if isdigit c then c.toNat - 48
  else if byte 'a' ≤ c && c ≤ byte 'f' then c.toNat - 87
  else if byte 'A' ≤ c && c ≤ byte 'F' then c.toNat - 55
  else 16

def isDigitOf (base : Nat) (c : UInt8) : Bool := digitValue c < base

/-- The value of a digit sequence, `ULLONG_MAX` when it does not fit. -/
def digitsValue (base : Nat) (digits : Name) : Nat :=
  min (digits.foldl (fun value c => value * base + digitValue c) 0) (2 ^ 64 - 1)

/-- `strtoull` on a string that starts with its subject sequence. -/
def strtoull (text : Name) (base : Nat) : Nat :=
  let hex := text.head? == some (byte '0') &&
    (text.tail.head? == some (byte 'x') || text.tail.head? == some (byte 'X')) &&
    (text.drop 2).head?.any isxdigit
  if base = 0 then
    if hex then digitsValue 16 ((text.drop 2).takeWhile (isDigitOf 16))
    else if text.head? == some (byte '0') then digitsValue 8 (text.takeWhile (isDigitOf 8))
    else digitsValue 10 (text.takeWhile (isDigitOf 10))
  else digitsValue base (text.takeWhile (isDigitOf base))

/-- The conversion `(size_t)c` of a signed `char`. -/
def charToSize (c : UInt8) : Nat :=
  if c < 128 then c.toNat else 2 ^ 64 - 256 + c.toNat

/-- `Lexer`. The buffer is followed by a zero byte. -/
structure Lexer where
  buffer : List UInt8
  i : Nat := 0
  ln : Nat := 1
  cn : Nat := 1
  srtDataC : Nat := 0
  tokens : List Token := []
  tCn : Nat := 1
  stderr : List Diag := []
  deriving DecidableEq, Repr

abbrev LexM := EStateM Stop Lexer

def Lexer.bufLen (l : Lexer) : Nat := l.buffer.length

/-- `init_lexer`. -/
def initLexer (buffer : List UInt8) : Lexer := { buffer }

def peak (offset : Nat) : LexM UInt8 := do
  let l ← get
  match (l.buffer ++ [0])[l.i + offset]? with
  | some c => return c
  | none => throw (.fault .outOfBounds)

def consume : LexM Unit :=
  modify fun l => { l with i := l.i + 1, cn := l.cn + 1 }

def addToken (kind : TokenKind) (lexeme : CStr) (intLit : Nat) : LexM Unit :=
  modify fun l =>
    { l with tokens := l.tokens ++ [⟨kind, lexeme, intLit, ⟨l.ln, l.tCn⟩⟩] }

/-- A diagnostic at the position of the token that is being read. -/
def lexReport (diag : Position → Diag) : LexM Unit :=
  modify fun l => { l with stderr := l.stderr ++ [diag ⟨l.ln, l.tCn⟩] }

/-- `strncpy` of `length` bytes. -/
def strncpy (source : List UInt8) (length : Nat) : List UInt8 :=
  let copied := (source.take length).takeWhile (· ≠ 0)
  copied ++ List.replicate (length - copied.length) 0

/-- `substr`, without the terminating zero. -/
def substr (start end_ : Nat) : LexM Name :=
  return strncpy ((← get).buffer.drop start) (end_ - start)

/-- A loop that consumes as long as the current byte satisfies a test. -/
def consumeWhile (test : UInt8 → Bool) : Nat → LexM Unit
  | 0 => throw .fuel
  | fuel + 1 => do
      if test (← peak 0) then
        consume
        consumeWhile test fuel

def getWord (fuel : Nat) : LexM Name := do
  let start := (← get).i
  consumeWhile (fun c => isalnum c || c == byte '_') fuel
  substr start (← get).i

/-- The first loop of `get_string`, which looks for the closing quote. -/
def scanString (q : UInt8) : Nat → LexM Unit
  | 0 => throw .fuel
  | fuel + 1 => do
      let c ← peak 0
      if c ≠ q then
        if c = 0 ∨ c = byte '\n' then
          lexReport .unterminatedLiteral
          throw .exit
        if c = byte '*' then
          consume
          let c ← peak 0
          if c = 0 ∨ c = byte '\n' then
            lexReport .unterminatedEscape
            throw .exit
        consume
        scanString q fuel

/-- The byte an escape stands for. -/
def escapeByte (c : UInt8) : Option UInt8 :=
  if c = byte '0' then some 0
  else if c = byte 'e' then some 4
  else if c = byte '(' then some 0x7b
  else if c = byte ')' then some 0x7d
  else if c = byte 't' then some (byte '\t')
  else if c = byte '"' then some (byte '"')
  else if c = byte 'n' then some (byte '\n')
  else if c = byte '*' then some (byte '*')
  else if c = byte '\'' then some (byte '\'')
  else none

/-- Reading a byte of the copy that `get_string` decodes in place. -/
def stringAt (string : List UInt8) (index : Nat) : LexM UInt8 :=
  match string[index]? with
  | some c => return c
  | none => throw (.fault .outOfBounds)

/-- The second loop of `get_string`, with its read and write indices. -/
def decodeString (strlen : Nat) :
    Nat → List UInt8 → Nat → Nat → LexM (List UInt8 × Nat)
  | 0, _, _, _ => throw .fuel
  | fuel + 1, string, r, w => do
      if r < strlen then
        let c ← stringAt string r
        if c = byte '*' then
          let c ← stringAt string (r + 1)
          match escapeByte c with
          | some decoded => decodeString strlen fuel (string.set w decoded) (r + 2) (w + 1)
          | none =>
              lexReport fun position => .unknownEscape position c
              throw .exit
        else
          decodeString strlen fuel (string.set w c) (r + 1) (w + 1)
      else
        return (string, w)

/-- `get_string`: the bytes before the zero that the second loop copies last.
The zero written after the loop may fall one byte behind the copy, into memory
of the arena that is not in use yet. -/
def getString (fuel : Nat) (q : UInt8) : LexM Name := do
  consume
  let start := (← get).i
  scanString q fuel
  let string ← substr start (← get).i
  consume
  let strlen := (← get).i - start
  let (string, w) ← decodeString strlen fuel (string ++ [0]) 0 0
  if q = byte '\'' ∧ w - 1 > 1 then
    lexReport .characterTooLong
  return (string.set w 0).take (w - 1)

/-- The loop of `get_digit` over an octal constant. -/
def octalDigits : Nat → LexM Unit
  | 0 => throw .fuel
  | fuel + 1 => do
      let c ← peak 0
      if isdigit c then
        unless isoctal c do
          lexReport fun position => .invalidOctalDigit position c
        consume
        octalDigits fuel

def getDigit (fuel : Nat) : LexM Name := do
  let start := (← get).i
  if (← peak 0) = byte '0' then
    let next ← peak 1
    consume
    if next = byte 'x' ∨ next = byte 'X' then
      consume
      consumeWhile isxdigit fuel
    else if next = byte 'b' ∨ next = byte 'B' then
      consume
      consumeWhile (fun c => c == byte '0' || c == byte '1') fuel
    else
      octalDigits fuel
  else
    consumeWhile isdigit fuel
  substr start (← get).i

/-- The loop over a comment in `lexer`. -/
def skipComment : Nat → LexM Unit
  | 0 => throw .fuel
  | fuel + 1 => do
      if (← get).i < (← get).bufLen then
        if (← peak 0) = byte '*' ∧ (← peak 1) = byte '/' then
          consume
          consume
        else
          if (← peak 0) = byte '\n' then
            modify fun l => { l with cn := 0, ln := l.ln + 1 }
          consume
          skipComment fuel

/-- The kinds that are decided by one byte. -/
def singleKind (c : UInt8) : TokenKind :=
  if c = 0x7b then .oBrace
  else if c = 0x7d then .cBrace
  else if c = byte '[' then .oBracket
  else if c = byte ']' then .cBracket
  else if c = byte '(' then .oPren
  else if c = byte ')' then .cPren
  else if c = byte ';' then .semicolon
  else if c = byte ':' then .colon
  else if c = byte '?' then .qMark
  else if c = byte '&' then .bitAnd
  else if c = byte '|' then .bitOr
  else if c = byte ',' then .comma
  else if c = byte '*' then .mul
  else if c = byte '/' then .dev
  else if c = byte '%' then .mod
  else .unknown

/-- The `switch` of `lexer`: the kind of an operator, and whether its second
byte was consumed. -/
def operatorKind (c : UInt8) : LexM TokenKind := do
  if c = byte '+' then pair '+' .add .inc
  else if c = byte '-' then pair '-' .sub .dec
  else if c = byte '!' then pair '=' .not .notEqual
  else if c = byte '=' then pair '=' .assign .equal
  else if c = byte '<' then
    if (← peak 1) = byte '=' then
      consume
      return .lesserEqual
    else pair '<' .lesser .bitshiftL
  else if c = byte '>' then
    if (← peak 1) = byte '=' then
      consume
      return .greaterEqual
    else pair '>' .greater .bitshiftR
  else
    return singleKind c
where
  /-- The macro `CASE_2`. -/
  pair (second : Char) (one two : TokenKind) : LexM TokenKind := do
    if (← peak 1) = byte second then
      consume
      return two
    else
      return one

/-- One iteration of the loop of `lexer`. -/
def lexToken (fuel : Nat) : LexM Unit := do
  let c ← peak 0
  modify fun l => { l with tCn := l.cn }
  if isspace c then
    if c = byte '\n' then
      modify fun l => { l with cn := 0, ln := l.ln + 1 }
    else
      modify fun l => { l with cn := l.cn + 1 }
    consume
  else if isalpha c || c == byte '_' then
    let word ← getWord fuel
    addToken ((getKeywordKind word).getD .identifier) (some word) 0
  else if isdigit c then
    let num ← getDigit fuel
    if num.head? = some (byte '0') ∧
        (num[1]? = some (byte 'b') ∨ num[1]? = some (byte 'B')) then
      addToken .int (some num) (strtoull (num.drop 2) 2)
    else
      addToken .int (some num) (strtoull num 0)
  else if c = byte '"' then
    let str ← getString fuel (byte '"')
    modify fun l => { l with srtDataC := l.srtDataC + 1 }
    addToken .string (some str) (← get).srtDataC
  else if c = byte '\'' then
    let str ← getString fuel (byte '\'')
    addToken .int (some str) (charToSize (str.head?.getD 0))
  else if c = byte '/' ∧ (← peak 1) = byte '*' then
    skipComment fuel
  else
    let kind ← operatorKind c
    addToken kind none 0
    consume

/-- The `while` loop of `lexer`. -/
def lexerLoop (fuel : Nat) : Nat → LexM Unit
  | 0 => throw .fuel
  | rounds + 1 => do
      if (← get).i < (← get).bufLen then
        lexToken fuel
        lexerLoop fuel rounds

/-- A number of iterations that no loop over a buffer of `length` bytes
exceeds. -/
def lexerFuel (length : Nat) : Nat := length + 2

def lexer : LexM Unit := fun l =>
  lexerLoop (lexerFuel l.bufLen) (lexerFuel l.bufLen) l

end Trident
