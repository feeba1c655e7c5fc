import Trident.Lexer
import Trident.Parser.Chains
import Mathlib.Data.List.Forall2

/-! Expression trees printed with all their parentheses, which the parser reads back. -/

set_option autoImplicit false

namespace Trident

open Foundation

/-- What is printed for a token: an operator or a separator, a name, or an atom with
all that its node keeps. -/
inductive Spelled where
  | mark (kind : TokenKind)
  | name (value : CStr)
  | atom (kind : TokenKind) (value : CStr) (intLit : Nat)

def Spelled.Is (token : Token) : Spelled → Prop
  | mark kind => token.kind = kind
  | name value => token.kind = .identifier ∧ token.lexeme = value
  | atom kind value intLit => token.kind = kind ∧ token.lexeme = value ∧ token.intLit = intLit

/-- The tokens are a printed text; their positions are arbitrary. -/
def PrintedAs (tokens : List Token) (text : List Spelled) : Prop :=
  List.Forall₂ Spelled.Is tokens text

/-- Some token for what is printed. -/
def Spelled.token : Spelled → Token
  | mark kind => ⟨kind, none, 0, ⟨1, 1⟩⟩
  | name value => ⟨.identifier, value, 0, ⟨1, 1⟩⟩
  | atom kind value intLit => ⟨kind, value, intLit, ⟨1, 1⟩⟩

theorem printedAs_token (text : List Spelled) : PrintedAs (text.map Spelled.token) text := by
  induction text with
  | nil => exact .nil
  | cons spelled text ih =>
      refine .cons ?_ ih
      cases spelled with
      | mark => rfl
      | name => exact ⟨rfl, rfl⟩
      | atom => exact ⟨rfl, rfl, rfl⟩

/-- Expression trees. -/
inductive ExprTree where
  | atom (kind : TokenKind) (literal : isKindLiteral kind = true) (value : CStr) (intLit : Nat)
  | index (name : CStr) (intLit : Nat) (inner : ExprTree)
  | call (name : CStr) (args : List ExprTree)
  | unary (op : TokenKind) (unary : isUnaryOp op = true) (operand : ExprTree)
  | binary (left : ExprTree) (op : TokenKind) (binary : isBinaryOp op = true) (right : ExprTree)

/-- Atoms, calls and indexed names stand without parentheses. -/
def ExprTree.isSimple : ExprTree → Bool
  | atom .. | index .. | call .. => true
  | unary .. | binary .. => false

/-- An operand, in parentheses if it needs them. -/
def parenthesised (simple : Bool) (text : List Spelled) : List Spelled :=
  if simple then text else .mark .oPren :: (text ++ [.mark .cPren])

mutual

def ExprTree.print : ExprTree → List Spelled
  | .atom kind _ value intLit => [.atom kind value intLit]
  | .index name intLit inner =>
      .atom .identifier name intLit :: .mark .oBracket :: (inner.print ++ [.mark .cBracket])
  | .call name args => .name name :: .mark .oPren :: (printArgs args ++ [.mark .cPren])
  | .unary op _ operand => .mark op :: parenthesised operand.isSimple operand.print
  | .binary left op _ right =>
      parenthesised left.isSimple left.print ++
        .mark op :: parenthesised right.isSimple right.print
  termination_by structural tree => tree

def printArgs : List ExprTree → List Spelled
  | [] => []
  | arg :: args => arg.print ++ printMoreArgs args
  termination_by structural args => args

def printMoreArgs : List ExprTree → List Spelled
  | [] => []
  | arg :: args => .mark .comma :: (arg.print ++ printMoreArgs args)
  termination_by structural args => args

end

mutual

/-- The nodes of a tree, where an index is an address computation. -/
def ExprTree.lowered : ExprTree → AstNode
  | .atom kind _ value intLit => .atom kind value intLit
  | .index name intLit inner => indexNode (.atom .identifier name intLit) inner.lowered
  | .call name args => .functionCall name (loweredArgs args)
  | .unary op _ operand => .unary op operand.lowered
  | .binary left op _ right => .binary left.lowered op right.lowered
  termination_by structural tree => tree

def loweredArgs : List ExprTree → List AstNode
  | [] => []
  | arg :: args => arg.lowered :: loweredArgs args
  termination_by structural args => args

end

section Splitting

variable {tokens : List Token} {text more : List Spelled}

theorem PrintedAs.append (printed : PrintedAs tokens (text ++ more)) :
    ∃ first second, tokens = first ++ second ∧ PrintedAs first text ∧ PrintedAs second more :=
  ⟨tokens.take text.length, tokens.drop text.length, (List.take_append_drop ..).symm,
    List.forall₂_take_append _ _ _ printed, List.forall₂_drop_append _ _ _ printed⟩

theorem PrintedAs.cons {spelled : Spelled} (printed : PrintedAs tokens (spelled :: text)) :
    ∃ token rest, tokens = token :: rest ∧ spelled.Is token ∧ PrintedAs rest text := by
  cases printed with
  | cons is rest => exact ⟨_, _, rfl, is, rest⟩

/-- A text between two marks. -/
theorem PrintedAs.enclosed {opened closed : TokenKind}
    (printed : PrintedAs tokens (.mark opened :: (text ++ [.mark closed]))) :
    ∃ (first : Mark opened) (inner : List Token) (last : Mark closed),
      tokens = first.1 :: (inner ++ [last.1]) ∧ PrintedAs inner text := by
  obtain ⟨first, _, rfl, kind, printed⟩ := printed.cons
  obtain ⟨inner, _, rfl, inside, printed⟩ := printed.append
  obtain ⟨last, _, rfl, kind', printed⟩ := printed.cons
  cases printed
  exact ⟨⟨first, kind⟩, inner, ⟨last, kind'⟩, rfl, inside⟩

end Splitting

/-- A printed tree is a chain, and an operand alone if it needs no parentheses. -/
structure ExprTree.Readable (tree : ExprTree) : Prop where
  chain : ∀ tokens, PrintedAs tokens tree.print →
    ∃ chain : Chain, chain.tokens = tokens ∧ chain.tree = tree.lowered
  simple : tree.isSimple = true → ∀ tokens, PrintedAs tokens tree.print →
    ∃ operand : Primary, operand.tokens = tokens ∧ operand.tree = tree.lowered

theorem ExprTree.readable_of_simple {tree : ExprTree}
    (simple : ∀ tokens, PrintedAs tokens tree.print →
      ∃ operand : Primary, operand.tokens = tokens ∧ operand.tree = tree.lowered) :
    tree.Readable := by
  refine ⟨fun tokens printed => ?_, fun _ => simple⟩
  obtain ⟨operand, spelled, same⟩ := simple tokens printed
  refine ⟨.mk operand .nil, ?_, same⟩
  rw [Chain.tokens, spelled]
  exact List.append_nil _

theorem ExprTree.Readable.operand {tree : ExprTree} (readable : tree.Readable) {tokens : List Token}
    (printed : PrintedAs tokens (parenthesised tree.isSimple tree.print)) :
    ∃ operand : Primary, operand.tokens = tokens ∧ operand.tree = tree.lowered := by
  unfold parenthesised at printed
  split at printed
  · exact readable.simple ‹_› tokens printed
  · obtain ⟨opened, inner, closed, rfl, inside⟩ := printed.enclosed
    obtain ⟨chain, rfl, same⟩ := readable.chain inner inside
    exact ⟨.paren opened chain closed, rfl, same⟩

mutual

theorem ExprTree.readable (tree : ExprTree) : tree.Readable := by
  match tree with
  | .atom kind literal value intLit =>
      apply ExprTree.readable_of_simple
      intro tokens printed
      obtain ⟨token, _, rfl, ⟨rfl, rfl, rfl⟩, behind⟩ := printed.cons
      cases behind
      exact ⟨.atom ⟨token, literal⟩, rfl, rfl⟩
  | .index name intLit inner =>
      apply ExprTree.readable_of_simple
      intro tokens printed
      obtain ⟨token, _, rfl, ⟨kind, rfl, rfl⟩, behind⟩ := printed.cons
      obtain ⟨opened, between, closed, rfl, inside⟩ := behind.enclosed
      obtain ⟨chain, rfl, same⟩ := inner.readable.chain between inside
      have node : token.atomNode = .atom .identifier token.lexeme token.intLit := by
        rw [Token.atomNode, kind]
      exact ⟨.index ⟨token, by rw [kind]; rfl⟩ opened chain closed, rfl,
        congrArg₂ indexNode node same⟩
  | .call name args =>
      apply ExprTree.readable_of_simple
      intro tokens printed
      obtain ⟨token, _, rfl, ⟨kind, rfl⟩, behind⟩ := printed.cons
      obtain ⟨opened, between, closed, rfl, inside⟩ := behind.enclosed
      obtain ⟨read, rfl, same⟩ := readable_args args between inside
      exact ⟨.call ⟨token, kind⟩ opened read closed, rfl, congrArg _ same⟩
  | .unary op unary operand =>
      refine ⟨fun tokens printed => ?_, nofun⟩
      obtain ⟨token, rest, rfl, rfl, behind⟩ := printed.cons
      obtain ⟨inner, rfl, same⟩ := operand.readable.operand behind
      refine ⟨.mk (.unary ⟨token, unary⟩ inner) .nil, List.append_nil _, ?_⟩
      exact congrArg (AstNode.unary token.kind) same
  | .binary left op binary right =>
      refine ⟨fun tokens printed => ?_, nofun⟩
      obtain ⟨first, _, rfl, before, printed⟩ := printed.append
      obtain ⟨token, rest, rfl, rfl, after⟩ := printed.cons
      obtain ⟨leftRead, rfl, leftSame⟩ := left.readable.operand before
      obtain ⟨rightRead, rfl, rightSame⟩ := right.readable.operand after
      refine ⟨.mk leftRead (.cons ⟨token, binary⟩ rightRead .nil), ?_, ?_⟩
      · simp [Chain.tokens, Rest.tokens]
      · rw [ExprTree.lowered, ← leftSame, ← rightSame]
        rfl
  termination_by structural tree

private theorem readable_args (args : List ExprTree) (tokens : List Token)
    (printed : PrintedAs tokens (printArgs args)) :
    ∃ read : Args, read.tokens = tokens ∧ read.trees = loweredArgs args := by
  match args with
  | [] =>
      cases printed
      exact ⟨.nil, rfl, rfl⟩
  | arg :: args =>
      obtain ⟨first, second, rfl, before, after⟩ := printed.append
      obtain ⟨chain, rfl, same⟩ := arg.readable.chain first before
      obtain ⟨more, rfl, others⟩ := readable_moreArgs args second after
      refine ⟨.cons chain more, rfl, ?_⟩
      rw [Args.trees, same, others]
      rfl
  termination_by structural args

private theorem readable_moreArgs (args : List ExprTree) (tokens : List Token)
    (printed : PrintedAs tokens (printMoreArgs args)) :
    ∃ read : MoreArgs, read.tokens = tokens ∧ read.trees = loweredArgs args := by
  match args with
  | [] =>
      cases printed
      exact ⟨.nil, rfl, rfl⟩
  | arg :: args =>
      obtain ⟨comma, _, rfl, kind, printed⟩ := printed.cons
      obtain ⟨first, second, rfl, before, after⟩ := printed.append
      obtain ⟨chain, rfl, same⟩ := arg.readable.chain first before
      obtain ⟨more, rfl, others⟩ := readable_moreArgs args second after
      refine ⟨.cons ⟨comma, kind⟩ chain more, rfl, ?_⟩
      rw [MoreArgs.trees, same, others]
      rfl
  termination_by structural args

end

/-- The parser reads a printed tree up to a closer. -/
theorem ExprTree.parses (tree : ExprTree) {tokens rest : List Token} {closer : Token} {fuel : Nat}
    {p : Parser} (printed : PrintedAs tokens tree.print) (enough : 3 * tokens.length + 1 ≤ fuel)
    (closes : getOpPrec closer.kind = precNone) :
    parseExprF fuel precNone (p.reading (tokens ++ closer :: rest)) =
      .ok tree.lowered (p.reading (closer :: rest)) := by
  obtain ⟨chain, rfl, same⟩ := tree.readable.chain tokens printed
  rw [← same]
  exact chain.parses fuel p closer rest enough closes

/-- The parser reads a printed tree back, up to the semicolon behind it. -/
theorem parseExprF_printed (tree : ExprTree) {tokens rest : List Token} {semicolon : Token}
    {fuel : Nat} {p : Parser} (printed : PrintedAs tokens tree.print)
    (enough : 3 * tokens.length + 1 ≤ fuel) (kind : semicolon.kind = .semicolon) :
    parseExprF fuel precNone (p.reading (tokens ++ semicolon :: rest)) =
      .ok tree.lowered (p.reading (semicolon :: rest)) := by
  have closes : getOpPrec semicolon.kind = precNone := by
    rw [kind]
    rfl
  exact tree.parses printed enough closes

/-- The tree of `x[1] = f(-y)`. -/
def assignTree : ExprTree :=
  .binary (.index (some [byte 'x']) 0 (.atom .int isKindLiteral_int (some [byte '1']) 1)) .assign rfl
    (.call (some [byte 'f'])
      [.unary .sub rfl (.atom .identifier isKindLiteral_identifier (some [byte 'y']) 0)])

theorem parseExprF_printed_assign :
    parseExprF 40 precNone ((initParser []).reading
        (assignTree.print.map Spelled.token ++ [Spelled.token (.mark .semicolon)])) =
      .ok (.binary (indexNode (.atom .identifier (some [byte 'x']) 0) (.atom .int (some [byte '1']) 1))
          .assign
          (.functionCall (some [byte 'f']) [.unary .sub (.atom .identifier (some [byte 'y']) 0)]))
        ((initParser []).reading [Spelled.token (.mark .semicolon)]) :=
  parseExprF_printed assignTree (printedAs_token _) (by decide) rfl

end Trident
