import Trident.Foundation.Simulation
import Trident.Lexing.Printing
import Trident.Parser.Statement
import Mathlib.Data.List.Forall2

/-! Two runs of the parser on tokens that say the same at different positions. They
build the same trees and report the same, each diagnostic at the same token. -/

set_option autoImplicit false

namespace Trident

open Foundation

/-- A pair of diagnostics that name the positions of two tokens of a pair. -/
inductive Diag.AtSame (same : Token → Token → Prop) : Diag → Diag → Prop where
  | expected {token token' kind got} : same token token' →
      AtSame same (.expected token.position kind got) (.expected token'.position kind got)
  | unexpectedToken {token token' kind} : same token token' →
      AtSame same (.unexpectedToken token.position kind) (.unexpectedToken token'.position kind)
  | unknownOperator {token token' kind} : same token token' →
      AtSame same (.unknownOperator token.position kind) (.unknownOperator token'.position kind)

/-- Two states of the parser that differ in positions only. -/
structure Parser.Alike (same : Token → Token → Prop) (p p' : Parser) : Prop where
  tok : List.Forall₂ same p.tok p'.tok
  heap : p.heap = p'.heap
  globalTable : p.globalTable = p'.globalTable
  ast : p.ast = p'.ast
  tLableTab : p.tLableTab = p'.tLableTab
  stderr : List.Forall₂ (Diag.AtSame same) p.stderr p'.stderr

/-- From like states the computations end alike, with values that are related. -/
abbrev ParseAlike {α β : Type} (same : Token → Token → Prop) (related : α → β → Prop)
    (first : ParseM α) (second : ParseM β) : Prop :=
  Simulates (fun _ => False) (Parser.Alike same) (Parser.Alike same) first second
    fun a b p p' => related a b ∧ p.Alike same p'

section

variable {same : Token → Token → Prop} {tokens tokens' : List Token}

private theorem head_alike (held : List.Forall₂ same tokens tokens') :
    Option.Rel same tokens.head? tokens'.head? := by
  cases held with
  | nil => exact .none
  | cons first _ => exact .some first

private theorem tail_alike (held : List.Forall₂ same tokens tokens') :
    List.Forall₂ same tokens.tail tokens'.tail := by
  cases held with
  | nil => exact .nil
  | cons _ rest => exact rest

end

namespace ParseAlike

variable {same : Token → Token → Prop} {α β γ δ : Type} {related : α → β → Prop}
  {last : γ → δ → Prop} {first : ParseM α} {second : ParseM β} {next : α → ParseM γ}
  {next' : β → ParseM δ}

theorem bind (alike : ParseAlike same related first second)
    (later : ∀ a b, related a b → ParseAlike same last (next a) (next' b)) :
    ParseAlike same last (first >>= next) (second >>= next') :=
  Simulates.bind alike fun a b p p' ⟨held, alike⟩ => later a b held p p' alike

theorem pure {a : α} {b : β} (held : related a b) :
    ParseAlike same related (pure a : ParseM α) (pure b) :=
  Simulates.pure fun _ _ alike => ⟨held, alike⟩

theorem throw (stop : Stop) : ParseAlike same related (throw stop : ParseM α) (throw stop) :=
  Simulates.throw fun _ _ alike => alike

theorem ite {condition condition' : Prop} [Decidable condition] [Decidable condition']
    {first' : ParseM α} {second' : ParseM β} (iff : condition ↔ condition')
    (yes : ParseAlike same related first second) (no : ParseAlike same related first' second') :
    ParseAlike same related (if condition then first else first')
      (if condition' then second else second') := by
  by_cases holds : condition
  · rw [if_pos holds, if_pos (iff.mp holds)]
    exact yes
  · rw [if_neg holds, if_neg (fun other => holds (iff.mpr other))]
    exact no

theorem get : ParseAlike same (Parser.Alike same) (get : ParseM Parser) get :=
  fun _ _ alike => ⟨_, _, rfl, alike, alike⟩

theorem modify {change : Parser → Parser}
    (kept : ∀ p p', p.Alike same p' → (change p).Alike same (change p')) :
    ParseAlike same Eq (modify change : ParseM PUnit) (modify change) :=
  fun _ _ alike => ⟨_, _, rfl, rfl, kept _ _ alike⟩

theorem discarded (alike : ParseAlike same related first second) :
    ParseAlike same Eq (discard first : ParseM PUnit) (discard second) := by
  intro p p' before
  have run := alike p p' before
  rw [discard_run]
  cases result : first p with
  | ok a q =>
      rw [result] at run
      obtain ⟨b, q', followed, _, after⟩ := run
      refine ⟨⟨⟩, q', ?_, rfl, after⟩
      rw [discard_run, followed]
  | error stop q =>
      rw [result] at run
      obtain impossible | ⟨q', followed, after⟩ := run
      · exact impossible.elim
      · refine .inr ⟨q', ?_, after⟩
        rw [discard_run, followed]

theorem curr : ParseAlike same (Option.Rel same) curr curr :=
  get.bind fun _ _ alike => .pure (head_alike alike.tok)

theorem ppeak : ParseAlike same (Option.Rel same) ppeak ppeak :=
  get.bind fun _ _ alike => .pure (head_alike (tail_alike alike.tok))

theorem pconsume : ParseAlike same (Option.Rel same) pconsume pconsume := fun _ _ alike =>
  ⟨_, _, rfl, head_alike alike.tok, { alike with tok := tail_alike alike.tok }⟩

theorem skip : ParseAlike same Eq (discard Trident.pconsume) (discard Trident.pconsume) :=
  pconsume.discarded

theorem deref {token token' : Option Token} (held : Option.Rel same token token') :
    ParseAlike same same (deref token) (deref token') := by
  cases held with
  | none => exact .throw _
  | some held => exact .pure held

theorem tokField : ParseAlike same same tokField tokField := curr.bind fun _ _ held => .deref held

theorem report {diag diag' : Diag} (held : diag.AtSame same diag') :
    ParseAlike same Eq (report diag) (report diag') := by
  intro p p' alike
  exact ⟨_, _, rfl, rfl, { alike with
    stderr := List.rel_append alike.stderr (.cons held .nil) }⟩

theorem initHashSet : ParseAlike same Eq initHashSet initHashSet := by
  intro p p' alike
  refine ⟨_, _, rfl, ?_, { alike with heap := ?_ }⟩ <;> rw [alike.heap]

theorem putToHashSet (id : Nat) (name : CStr) (info : VarInfo) :
    ParseAlike same Eq (putToHashSet id name info) (putToHashSet id name info) := by
  refine get.bind fun p p' alike => ?_
  rw [alike.heap]
  split
  · exact .throw _
  · exact .throw _
  · exact .modify fun q q' alike' => { alike' with heap := by rw [alike'.heap] }

theorem addNode (tail : Option (List AstNode)) (node : Option AstNode) :
    ParseAlike same Eq (addNode tail node) (addNode tail node) := by
  cases tail <;> cases node <;> first | exact .pure rfl | exact .throw _

end ParseAlike

/-- Related tokens say the same. -/
def SameMeaning (same : Token → Token → Prop) : Prop :=
  ∀ token token', same token token' → token.meaning = token'.meaning

namespace SameMeaning

variable {same : Token → Token → Prop} {token token' : Token}

theorem kind (means : SameMeaning same) (held : same token token') : token.kind = token'.kind :=
  congrArg Meaning.kind (means _ _ held)

theorem lexeme (means : SameMeaning same) (held : same token token') : token.lexeme = token'.lexeme :=
  congrArg Meaning.lexeme (means _ _ held)

theorem intLit (means : SameMeaning same) (held : same token token') : token.intLit = token'.intLit :=
  congrArg Meaning.intLit (means _ _ held)

theorem any_kind (means : SameMeaning same) {token token' : Option Token}
    (held : Option.Rel same token token') (kind : TokenKind) :
    (token.any fun token => token.kind == kind) = token'.any fun token => token.kind == kind := by
  cases held with
  | none => rfl
  | some held => simp only [Option.any_some, means.kind held]

variable (means : SameMeaning same)
include means

theorem isKind (kind : TokenKind) : ParseAlike same Eq (isKind kind) (isKind kind) :=
  ParseAlike.get.bind fun _ _ alike => .pure (means.any_kind (head_alike alike.tok) kind)

theorem expectAndConsume (kind : TokenKind) :
    ParseAlike same Eq (expectAndConsume kind) (expectAndConsume kind) := by
  refine ParseAlike.tokField.bind fun token token' held => ?_
  refine .ite (by rw [means.kind held]) ?_ .skip
  rw [means.kind held]
  exact .report (.expected held)

theorem parseAtomF : ParseAlike same Eq parseAtomF parseAtomF := by
  refine ParseAlike.pconsume.bind fun _ _ held => (ParseAlike.deref held).bind fun _ _ held => .pure ?_
  rw [means.kind held, means.lexeme held, means.intLit held]

/-- The token is taken if it is of this kind. -/
theorem optional {α β : Type} {related : α → β → Prop} {next : ParseM α} {next' : ParseM β}
    (kind : TokenKind) (alike : ParseAlike same related next next') :
    ParseAlike same related
      (do
        if ← Trident.isKind kind then
          discard pconsume
        next)
      (do
        if ← Trident.isKind kind then
          discard pconsume
        next') := by
  refine (means.isKind kind).bind fun found found' same_found => ?_
  subst same_found
  cases found
  · exact alike
  · exact ParseAlike.skip.bind fun _ _ _ => alike

/-- The functions of `expr.c`, with this bound on their depth. -/
structure Exprs (same : Token → Token → Prop) (fuel : Nat) : Prop where
  expr : ∀ prec, ParseAlike same Eq (parseExprF fuel prec) (parseExprF fuel prec)
  loop : ∀ prec left, ParseAlike same Eq (parseExprLoop fuel prec left) (parseExprLoop fuel prec left)
  call : ParseAlike same Eq (parseFunctionCallS fuel) (parseFunctionCallS fuel)
  args : ParseAlike same Eq (parseCallArgs fuel) (parseCallArgs fuel)
  unary : ParseAlike same Eq (parseUnaryLopS fuel) (parseUnaryLopS fuel)
  left : ParseAlike same Eq (parseLeftF fuel) (parseLeftF fuel)

theorem exprs (fuel : Nat) : Exprs same fuel := by
  induction fuel with
  | zero => constructor <;> intros <;> exact .throw _
  | succ fuel ih =>
      constructor
      case expr =>
        intro prec
        rw [parseExprF]
        exact ih.left.bind fun left _ same => same ▸ ih.loop prec left
      case loop =>
        intro prec left
        rw [parseExprLoop]
        refine ParseAlike.curr.bind fun _ _ held => ?_
        cases held with
        | none => exact .pure rfl
        | some held =>
            simp only [← means.kind held]
            refine .ite Iff.rfl ?_ (.ite Iff.rfl (.pure rfl) ?_)
            · exact (ParseAlike.report (.unknownOperator held)).bind fun _ _ _ => .throw _
            · refine ParseAlike.skip.bind fun _ _ _ => (ih.expr _).bind fun right _ same => ?_
              exact same ▸ ih.loop prec _
      case call =>
        rw [parseFunctionCallS]
        refine ParseAlike.tokField.bind fun _ _ held => ParseAlike.skip.bind fun _ _ _ =>
          (means.expectAndConsume _).bind fun _ _ _ => ih.args.bind fun args _ same =>
          (means.expectAndConsume _).bind fun _ _ _ => .pure ?_
        rw [means.lexeme held, same]
      case args =>
        rw [parseCallArgs]
        refine ParseAlike.tokField.bind fun _ _ held => ?_
        refine .ite (by rw [means.kind held]) (.pure rfl) ?_
        refine (ih.expr _).bind fun expr _ same => ?_
        subst same
        exact means.optional .comma (ih.args.bind fun args _ same => .pure (by rw [same]))
      case unary =>
        rw [parseUnaryLopS]
        refine ParseAlike.pconsume.bind fun _ _ held => (ParseAlike.deref held).bind fun _ _ held =>
          ih.left.bind fun left _ same => .pure ?_
        rw [means.kind held, same]
      case left =>
        rw [parseLeftF]
        refine ParseAlike.curr.bind fun _ _ held => (ParseAlike.deref held).bind fun token _ held =>
          ParseAlike.ppeak.bind fun next _ following => ?_
        refine .ite (by rw [means.kind held]) ?_ (.ite ?_ ih.call (.ite ?_ ih.unary ?_))
        · exact (means.expectAndConsume _).bind fun _ _ _ => (ih.expr _).bind fun node _ same =>
            (means.expectAndConsume _).bind fun _ _ _ => .pure same
        · rw [means.kind held, means.any_kind following]
        · rw [means.kind held]
        · refine means.parseAtomF.bind fun left _ same => ?_
          subst same
          refine ParseAlike.tokField.bind fun _ _ held => ?_
          refine .ite (by rw [means.kind held]) ?_ (.pure rfl)
          exact ParseAlike.skip.bind fun _ _ _ => (ih.expr _).bind fun index _ same =>
            (means.expectAndConsume _).bind fun _ _ _ => .pure (by rw [same])

theorem parseAutoSize : ParseAlike same Eq parseAutoSize parseAutoSize := by
  refine (means.isKind _).bind fun found found' same_found => ?_
  subst same_found
  refine .ite Iff.rfl ?_ (.pure rfl)
  refine ParseAlike.skip.bind fun _ _ _ => ParseAlike.tokField.bind fun _ _ held => ?_
  refine (means.expectAndConsume _).bind fun _ _ _ => (means.expectAndConsume _).bind fun _ _ _ => ?_
  exact .pure (means.intLit held)

theorem parseAutoLoop (fuel symtab : Nat) (bodyTail : Option (List AstNode)) :
    ParseAlike same Eq (parseAutoLoop fuel symtab bodyTail) (parseAutoLoop fuel symtab bodyTail) := by
  induction fuel generalizing bodyTail with
  | zero => exact .throw _
  | succ fuel ih =>
      rw [Trident.parseAutoLoop]
      refine ParseAlike.tokField.bind fun _ _ held => ?_
      rw [means.lexeme held]
      refine (means.expectAndConsume _).bind fun _ _ _ => means.parseAutoSize.bind fun size _ same => ?_
      subst same
      refine (ParseAlike.putToHashSet _ _ _).bind fun _ _ _ => ?_
      refine (ParseAlike.addNode _ _).bind fun tail _ same => ?_
      subst same
      refine (means.isKind _).bind fun found _ same => ?_
      subst same
      exact .ite Iff.rfl (ParseAlike.skip.bind fun _ _ _ => ih tail) (.pure rfl)

theorem parseAutoS (fuel symtab : Nat) (bodyTail : Option (List AstNode)) :
    ParseAlike same Eq (parseAutoS fuel symtab bodyTail) (parseAutoS fuel symtab bodyTail) :=
  (means.expectAndConsume _).bind fun _ _ _ => (means.parseAutoLoop _ _ _).bind fun _ _ same =>
    (means.expectAndConsume _).bind fun _ _ _ => .pure same

theorem parseExtrnLoop (fuel : Nat) (bodyTail : Option (List AstNode)) :
    ParseAlike same Eq (parseExtrnLoop fuel bodyTail) (parseExtrnLoop fuel bodyTail) := by
  induction fuel generalizing bodyTail with
  | zero => exact .throw _
  | succ fuel ih =>
      rw [Trident.parseExtrnLoop]
      refine ParseAlike.tokField.bind fun _ _ held => ParseAlike.skip.bind fun _ _ _ => ?_
      rw [means.lexeme held]
      refine means.optional .comma ?_
      refine (ParseAlike.addNode _ _).bind fun tail _ same => ?_
      subst same
      refine (means.isKind _).bind fun found _ same => ?_
      subst same
      exact .ite Iff.rfl (.pure rfl) (ih tail)

theorem parseExtrnS (fuel : Nat) (bodyTail : Option (List AstNode)) :
    ParseAlike same Eq (parseExtrnS fuel bodyTail) (parseExtrnS fuel bodyTail) :=
  (means.expectAndConsume _).bind fun _ _ _ => (means.parseExtrnLoop _ _).bind fun _ _ same =>
    (means.expectAndConsume _).bind fun _ _ _ => .pure same

theorem parseGotoS : ParseAlike same Eq parseGotoS parseGotoS :=
  (means.expectAndConsume _).bind fun _ _ _ => ParseAlike.tokField.bind fun _ _ held =>
    ParseAlike.skip.bind fun _ _ _ => (means.expectAndConsume _).bind fun _ _ _ =>
    .pure (by rw [means.lexeme held])

theorem parseReturnS (fuel : Nat) : ParseAlike same Eq (parseReturnS fuel) (parseReturnS fuel) :=
  (means.expectAndConsume _).bind fun _ _ _ => ((means.exprs fuel).expr _).bind fun _ _ same =>
    (means.expectAndConsume _).bind fun _ _ _ => .pure (by rw [same])

theorem parseGlobalSize : ParseAlike same Eq parseGlobalSize parseGlobalSize := by
  refine (means.isKind _).bind fun found found' same_found => ?_
  subst same_found
  refine .ite Iff.rfl ?_ (.pure rfl)
  refine ParseAlike.skip.bind fun _ _ _ => ParseAlike.tokField.bind fun _ _ held => ?_
  refine ParseAlike.skip.bind fun _ _ _ => (means.expectAndConsume _).bind fun _ _ _ => ?_
  exact .pure (means.intLit held)

theorem parseGlobalLoop (fuel : Nat) (name : CStr) :
    ParseAlike same Eq (parseGlobalLoop fuel name) (parseGlobalLoop fuel name) := by
  induction fuel generalizing name with
  | zero => exact .throw _
  | succ fuel ih =>
      rw [Trident.parseGlobalLoop]
      refine means.parseGlobalSize.bind fun size _ same => ?_
      subst same
      refine ParseAlike.get.bind fun p p' alike => ?_
      rw [alike.globalTable]
      refine (ParseAlike.putToHashSet _ _ _).bind fun _ _ _ => ?_
      refine ParseAlike.bind (.modify fun q q' alike => { alike with ast := by rw [alike.ast] })
        fun _ _ _ => ?_
      refine (means.isKind _).bind fun found _ same => ?_
      subst same
      refine .ite Iff.rfl ?_ (.pure rfl)
      refine ParseAlike.skip.bind fun _ _ _ => ParseAlike.tokField.bind fun _ _ held => ?_
      rw [means.lexeme held]
      exact ParseAlike.skip.bind fun _ _ _ => ih _

theorem parseGlobalS (fuel : Nat) (name : CStr) :
    ParseAlike same Eq (parseGlobalS fuel name) (parseGlobalS fuel name) :=
  (means.parseGlobalLoop _ _).bind fun _ _ _ => means.expectAndConsume _

theorem parseExprS (fuel : Nat) : ParseAlike same Eq (parseExprS fuel) (parseExprS fuel) := by
  refine (means.isKind _).bind fun found _ same => ?_
  subst same
  refine .ite Iff.rfl (ParseAlike.skip.bind fun _ _ _ => .pure rfl) ?_
  exact ((means.exprs fuel).expr _).bind fun _ _ same =>
    (means.expectAndConsume _).bind fun _ _ _ => .pure (by rw [same])

theorem parseLableS : ParseAlike same Eq parseLableS parseLableS := by
  refine ParseAlike.tokField.bind fun _ _ held => ParseAlike.get.bind fun p p' alike => ?_
  rw [means.lexeme held, alike.tLableTab]
  exact (ParseAlike.putToHashSet _ _ _).bind fun _ _ _ => ParseAlike.skip.bind fun _ _ _ =>
    ParseAlike.skip.bind fun _ _ _ => .pure rfl

/-- The statements, with this bound on their depth. -/
structure Statements (same : Token → Token → Prop) (fuel : Nat) : Prop where
  statement : ∀ parent symtab bodyTail, ParseAlike same Eq
    (parseStatementsF fuel parent symtab bodyTail) (parseStatementsF fuel parent symtab bodyTail)
  scope : ∀ parent symtab,
    ParseAlike same Eq (parseScopeF fuel parent symtab) (parseScopeF fuel parent symtab)
  body : ∀ scopeN body,
    ParseAlike same Eq (parseScopeBody fuel scopeN body) (parseScopeBody fuel scopeN body)
  if_ : ∀ kind parent, ParseAlike same Eq (parseIfS fuel kind parent) (parseIfS fuel kind parent)
  chain : ∀ parent, ParseAlike same Eq (parseIfChain fuel parent) (parseIfChain fuel parent)
  while_ : ∀ parent, ParseAlike same Eq (parseWhileS fuel parent) (parseWhileS fuel parent)

theorem statements (fuel : Nat) : Statements same fuel := by
  induction fuel with
  | zero => constructor <;> intros <;> exact .throw _
  | succ fuel ih =>
      constructor
      case statement =>
        intro parent symtab bodyTail
        rw [parseStatementsF]
        refine ParseAlike.tokField.bind fun token token' held => ParseAlike.ppeak.bind
          fun next _ following => ?_
        have expression : ParseAlike same Eq
            (do return (← Trident.parseExprS fuel, bodyTail))
            (do return (← Trident.parseExprS fuel, bodyTail)) :=
          (means.parseExprS fuel).bind fun _ _ same => .pure (by rw [same])
        have only {statement : ParseM AstNode} (alike : ParseAlike same Eq statement statement) :
            ParseAlike same Eq (do return (some (← statement), bodyTail))
              (do return (some (← statement), bodyTail)) :=
          alike.bind fun _ _ same => .pure (by rw [same])
        rw [← means.kind held]
        cases token.kind
        case auto => exact (means.parseAutoS _ _ _).bind fun _ _ same => .pure (by rw [same])
        case extrn => exact (means.parseExtrnS _ _).bind fun _ _ same => .pure (by rw [same])
        case goto => exact only means.parseGotoS
        case oBrace =>
          refine ParseAlike.initHashSet.bind fun symtab _ same => ?_
          exact same ▸ only (ih.scope _ _)
        case return_ => exact only (means.parseReturnS _)
        case if_ => exact only (ih.if_ _ _)
        case while_ => exact only (ih.while_ _)
        case identifier =>
          refine .ite ?_ (only means.parseLableS) expression
          rw [means.any_kind following]
        all_goals exact expression
      case scope =>
        intro parent symtab
        rw [parseScopeF]
        exact (means.expectAndConsume _).bind fun _ _ _ => (ih.body _ _).bind fun _ _ same =>
          (means.expectAndConsume _).bind fun _ _ _ => .pure (by rw [same])
      case body =>
        intro scopeN body
        rw [parseScopeBody]
        refine ParseAlike.curr.bind fun _ _ held => ?_
        cases held with
        | none => exact .pure rfl
        | some held =>
            refine .ite (by rw [means.kind held]) (.pure rfl) ?_
            refine (ih.statement _ _ _).bind fun result _ same => ?_
            subst same
            obtain ⟨statement, bodyTail⟩ := result
            refine .ite Iff.rfl ?_ (ih.body _ _)
            refine (ParseAlike.addNode _ _).bind fun tail _ same => ?_
            subst same
            exact ih.body _ _
      case if_ =>
        intro kind parent
        rw [parseIfS]
        refine (means.expectAndConsume _).bind fun _ _ _ => (means.expectAndConsume _).bind fun _ _ _ =>
          ((means.exprs fuel).expr _).bind fun condition _ same => ?_
        subst same
        refine (means.expectAndConsume _).bind fun _ _ _ => ParseAlike.initHashSet.bind
          fun symtab _ same => ?_
        subst same
        exact (ih.scope _ _).bind fun body _ same => (ih.chain _).bind fun chain _ same' =>
          .pure (by rw [same, same'])
      case chain =>
        intro parent
        rw [parseIfChain]
        refine (means.isKind _).bind fun found _ same => ?_
        subst same
        refine .ite Iff.rfl (ParseAlike.skip.bind fun _ _ _ => ?_) (.pure rfl)
        refine (means.isKind _).bind fun found _ same => ?_
        subst same
        refine .ite Iff.rfl ((ih.if_ _ _).bind fun _ _ same => .pure (by rw [same])) ?_
        refine ParseAlike.initHashSet.bind fun symtab _ same => ?_
        subst same
        refine (ih.scope _ _).bind fun body _ same => ?_
        subst same
        split
        · exact .pure rfl
        · exact .throw _
      case while_ =>
        intro parent
        rw [parseWhileS]
        refine ParseAlike.initHashSet.bind fun symtab _ same => ?_
        subst same
        refine (means.expectAndConsume _).bind fun _ _ _ => (means.expectAndConsume _).bind fun _ _ _ =>
          ((means.exprs fuel).expr _).bind fun condition _ same => ?_
        subst same
        exact (means.expectAndConsume _).bind fun _ _ _ => (ih.scope _ _).bind fun _ _ same =>
          .pure (by rw [same])

theorem parseParams (fuel symtable params : Nat) :
    ParseAlike same Eq (parseParams fuel symtable params) (parseParams fuel symtable params) := by
  induction fuel generalizing params with
  | zero => exact .throw _
  | succ fuel ih =>
      rw [Trident.parseParams]
      refine ParseAlike.tokField.bind fun _ _ held => ?_
      refine .ite (by rw [means.kind held]) (.pure rfl) ?_
      refine ParseAlike.tokField.bind fun _ _ held => ParseAlike.skip.bind fun _ _ _ => ?_
      rw [means.lexeme held]
      exact (ParseAlike.putToHashSet _ _ _).bind fun _ _ _ => means.optional .comma (ih _)

theorem parseFunctionS (fuel : Nat) (name : CStr) :
    ParseAlike same Eq (parseFunctionS fuel name) (parseFunctionS fuel name) := by
  refine ParseAlike.initHashSet.bind fun symtable _ same => ?_
  subst same
  refine ParseAlike.initHashSet.bind fun lableTable _ same => ?_
  subst same
  refine ParseAlike.bind (.modify fun q q' alike => { alike with tLableTab := rfl }) fun _ _ _ => ?_
  refine (means.expectAndConsume _).bind fun _ _ _ => (means.parseParams _ _ _).bind
    fun params _ same => ?_
  subst same
  refine (means.expectAndConsume _).bind fun _ _ _ => ParseAlike.get.bind fun p p' alike => ?_
  rw [show p.globalScopeN = p'.globalScopeN by rw [Parser.globalScopeN, alike.globalTable]; rfl]
  refine ((means.statements fuel).statement _ _ _).bind fun result _ same => ?_
  subst same
  obtain ⟨statement, _⟩ := result
  cases statement with
  | none => exact .throw _
  | some body => exact .pure rfl

theorem parserLoop (fuel : Nat) : ParseAlike same Eq (parserLoop fuel) (parserLoop fuel) := by
  induction fuel with
  | zero => exact .throw _
  | succ fuel ih =>
      rw [Trident.parserLoop]
      refine ParseAlike.curr.bind fun _ _ held => ?_
      cases held with
      | none => exact .pure rfl
      | @some token token' held =>
          refine .ite (by rw [means.kind held]) ?_ (.ite (by rw [means.kind held]) ?_ ?_)
          · refine ParseAlike.skip.bind fun _ _ _ => ParseAlike.tokField.bind fun _ _ following => ?_
            rw [means.lexeme held]
            refine .ite (by rw [means.kind following]) ?_ ?_
            · refine (means.parseFunctionS _ _).bind fun function _ same => ?_
              subst same
              exact ParseAlike.bind (.modify fun q q' alike => { alike with ast := by rw [alike.ast] })
                fun _ _ _ => ih
            · exact (means.parseGlobalS _ _).bind fun _ _ _ => ih
          · refine ParseAlike.get.bind fun p p' alike => ?_
            rw [alike.ast]
            refine (means.parseExtrnS _ _).bind fun ast _ same => ?_
            subst same
            exact ParseAlike.bind (.modify fun q q' alike => { alike with ast := rfl }) fun _ _ _ => ih
          · rw [means.kind held]
            exact (ParseAlike.report (.unexpectedToken held)).bind fun _ _ _ =>
              ParseAlike.skip.bind fun _ _ _ => ih

theorem parser : ParseAlike same Eq parser parser := by
  intro p p' alike
  have run := means.parserLoop (parserFuel p.tok.length) p p' alike
  have text (p : Parser) : Trident.parser p = Trident.parserLoop (parserFuel p.tok.length) p := rfl
  rw [text, text, ← alike.tok.length_eq]
  exact run

end SameMeaning

end Trident
