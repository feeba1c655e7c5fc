import Mathlib.Algebra.Ring.Int.Defs
import Mathlib.Algebra.Ring.Nat
import Mathlib.Data.List.Basic

/-! Tokens of the B source language, as `lexer.h` declares them. -/

set_option autoImplicit false

namespace Trident

/-- The bytes of a C string, without the terminating zero. -/
abbrev Name := List UInt8

/-- A `const char *`. The null pointer is `none`. -/
abbrev CStr := Option Name

/-- The part of a byte string that C string functions see. -/
def cstr (name : Name) : Name := name.takeWhile (· ≠ 0)

inductive TokenKind where
  | unknown | endOfToken
  | identifier | int | string | lable
  | extrn | auto | if_ | else_ | while_ | goto | return_
  | oBrace | cBrace | oPren | cPren | oBracket | cBracket | semicolon | colon | qMark
  | comma | not | add | sub | mul | dev | mod
  | bitAnd | bitOr
  | bitshiftL | bitshiftR
  | equal | notEqual | greater | greaterEqual | lesser | lesserEqual
  | assign
  | inc | dec
  deriving DecidableEq, Repr

structure Position where
  ln : Nat
  cn : Nat
  deriving DecidableEq, Repr

/-- A token without its `next` link; a token list is a `List Token`. -/
structure Token where
  kind : TokenKind
  lexeme : CStr
  intLit : Nat
  position : Position
  deriving DecidableEq, Repr

/-- `token_kind_to_str`. -/
def tokenKindToStr : TokenKind → String
  | .unknown => "UNKNOWN"
  | .endOfToken => "END_OF_TOKEN"
  | .identifier => "IDENTIFIER"
  | .int => "INT"
  | .string => "STRING"
  | .lable => "LABLE"
  | .extrn => "EXTRN"
  | .auto => "AUTO"
  | .if_ => "IF"
  | .else_ => "ELSE"
  | .while_ => "WHILE"
  | .goto => "GOTO"
  | .return_ => "RETURN"
  | .oBrace => "\x7b"
  | .cBrace => "\x7d"
  | .oPren => "("
  | .cPren => ")"
  | .oBracket => "["
  | .cBracket => "]"
  | .semicolon => ";"
  | .colon => ":"
  | .qMark => "?"
  | .not => "!"
  | .comma => ","
  | .add => "+"
  | .sub => "-"
  | .mul => "*"
  | .dev => "/"
  | .mod => "%"
  | .assign => "="
  | .inc => "++"
  | .dec => "--"
  | .bitAnd => "&"
  | .bitOr => "|"
  | .bitshiftL => "<<"
  | .bitshiftR => ">>"
  | .equal => "=="
  | .notEqual => "!="
  | .lesser => "<"
  | .greater => ">"
  | .lesserEqual => "<="
  | .greaterEqual => ">="

end Trident
