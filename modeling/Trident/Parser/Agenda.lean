import Trident.Foundation.Predictive
import Trident.Parser.Statement

/-! The grammar that the parser follows on any tokens, with a part for each of its functions
and loops. A part says what it is made of by the next token or the next two, which tokens it
cannot do without, and where a text is put into a table. -/

set_option autoImplicit false

namespace Trident

open Foundation

/-- What is still to be read, or to be done with what was read. -/
inductive Part where
  | expect (kind : TokenKind)
  | optional (kind : TokenKind)
  | any
  | enter (name : CStr)
  /-- A node is appended to the list of a block. The body of a function has no such list. -/
  | append (listed : Bool)
  | expr | tail | index | call | args
  | autos (listed : Bool) | moreAutos (listed : Bool) | autoSize
  | externs (listed : Bool) | moreExterns (listed : Bool)
  | statement (listed : Bool)
  | block | body | chain | elseBody
  | params
  | declaration (name : CStr) | globals (name : CStr) | moreGlobals | nextGlobal | globalSize
  | program
  deriving DecidableEq

namespace Part

/-- The part needs a token, and goes on by it and the tokens behind it. -/
def needs (tokens : List Token) (choose : Token → List Token → Turn Part Token) : Turn Part Token :=
  match tokens with
  | [] => .lacks
  | token :: rest => choose token rest

/-- The parts come behind a token of the kind, if that is next. -/
def behind (kind : TokenKind) (parts : List Part) : List Token → Turn Part Token
  | [] => .opens [] []
  | token :: rest => if token.kind = kind then .opens parts rest else .opens [] (token :: rest)

/-- In front of a token of the kind come the parts `here`, and otherwise `other`. -/
def before (kind : TokenKind) (here other : List Part) (tokens : List Token) : Turn Part Token :=
  .opens (if tokens.head?.any (·.kind == kind) then here else other) tokens

def ifS : List Part := [.expect .if_, .expect .oPren, .expr, .expect .cPren, .block, .chain]

def whileS : List Part := [.expect .while_, .expect .oPren, .expr, .expect .cPren, .block]

def externS (listed : Bool) : List Part := [.expect .extrn, .externs listed, .expect .semicolon]

/-- A comma is a statement that is no node. -/
def exprS (listed : Bool) (token : Token) : List Part :=
  if token.kind = .comma then [.any, .append listed] else [.expr, .expect .semicolon]

/-- An operand: parentheses, a call, a unary operator, or any other token as an atom. -/
def left (token : Token) (rest : List Token) : Turn Part Token :=
  if token.kind = .oPren then .opens [.expect .oPren, .expr, .expect .cPren, .tail] (token :: rest)
  else if token.kind = .identifier ∧ rest.head?.any (·.kind == .oPren) then
    .opens [.call, .tail] (token :: rest)
  else if isUnaryOp token.kind then .opens [.any, .expr] (token :: rest)
  else .opens [.index, .tail] rest

/-- Behind an operand: a binary operator, or one of the tokens that end an expression. -/
def operator : List Token → Turn Part Token
  | [] => .opens [] []
  | token :: rest =>
      if getOpPrec token.kind = precUnknown then .stops
      else if getOpPrec token.kind = precNone then .opens [] (token :: rest)
      else .opens [.expr] rest

def statements (listed : Bool) (token : Token) (rest : List Token) : List Part :=
  match token.kind with
  | .auto => [.expect .auto, .autos listed, .expect .semicolon, .append listed]
  | .extrn => externS listed ++ [.append listed]
  | .goto => [.expect .goto, .any, .expect .semicolon]
  | .oBrace => [.block]
  | .return_ => [.expect .return_, .expr, .expect .semicolon]
  | .if_ => ifS
  | .while_ => whileS
  | .identifier =>
      if rest.head?.any (·.kind == .colon) then [.enter token.lexeme, .any, .any] else exprS listed token
  | _ => exprS listed token

/-- What the part comes to in front of the tokens. -/
def turn : Part → List Token → Turn Part Token
  | .expect kind, tokens => needs tokens fun token rest => behind kind [] (token :: rest)
  | .optional kind, tokens => behind kind [] tokens
  | .any, tokens => needs tokens fun _ rest => .opens [] rest
  | .enter name, tokens => if name.isSome then .opens [] tokens else .lacks
  | .append listed, tokens => if listed then .opens [] tokens else .lacks
  | .expr, tokens => needs tokens left
  | .tail, tokens => operator tokens
  | .index, tokens => needs tokens fun token rest =>
      behind .oBracket [.expr, .expect .cBracket] (token :: rest)
  | .call, tokens => needs tokens fun _ rest => .opens [.expect .oPren, .args, .expect .cPren] rest
  | .args, tokens => needs tokens fun token rest =>
      before .cPren [] [.expr, .optional .comma, .args] (token :: rest)
  | .autos listed, tokens => needs tokens fun token rest =>
      .opens [.expect .identifier, .autoSize, .enter token.lexeme, .append listed, .moreAutos listed]
        (token :: rest)
  | .autoSize, tokens => behind .oBracket [.expect .int, .expect .cBracket] tokens
  | .moreAutos listed, tokens => behind .comma [.autos listed] tokens
  | .externs listed, tokens => needs tokens fun _ rest =>
      .opens [.optional .comma, .append listed, .moreExterns listed] rest
  | .moreExterns listed, tokens => before .semicolon [] [.externs listed] tokens
  | .statement listed, tokens => needs tokens fun token rest =>
      .opens (statements listed token rest) (token :: rest)
  | .block, tokens => .opens [.expect .oBrace, .body, .expect .cBrace] tokens
  | .body, [] => .opens [] []
  | .body, token :: rest => before .cBrace [] [.statement true, .body] (token :: rest)
  | .chain, tokens => behind .else_ [.elseBody] tokens
  | .elseBody, tokens => before .if_ ifS [.block] tokens
  | .params, tokens => needs tokens fun token rest =>
      if token.kind = .cPren then .opens [] (token :: rest)
      else .opens [.enter token.lexeme, .optional .comma, .params] rest
  | .declaration name, tokens => needs tokens fun token rest =>
      if token.kind = .oPren then
        .opens [.expect .oPren, .params, .expect .cPren, .statement false] (token :: rest)
      else .opens [.globals name, .expect .semicolon] (token :: rest)
  | .globals name, tokens => .opens [.globalSize, .enter name, .moreGlobals] tokens
  | .globalSize, tokens => behind .oBracket [.any, .expect .cBracket] tokens
  | .moreGlobals, tokens => behind .comma [.nextGlobal] tokens
  | .nextGlobal, tokens => needs tokens fun token rest => .opens [.globals token.lexeme] rest
  | .program, [] => .opens [] []
  | .program, token :: rest =>
      if token.kind = .identifier then .opens [.declaration token.lexeme, .program] rest
      else if token.kind = .extrn then .opens (externS true ++ [.program]) (token :: rest)
      else .opens [.program] rest

end Part

/-- The tokens can be read to their end, or to one behind an operand that is no operator. -/
def ReadsThrough (tokens : List Token) : Prop := Readable Part.turn [.program] tokens

end Trident
