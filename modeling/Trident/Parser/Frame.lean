import Trident.Foundation.Steps
import Trident.Parser.Statement

/-! Expressions are parsed without a look at symbol tables: only the tokens and
the diagnostics of the context change. -/

set_option autoImplicit false

namespace Trident

open Foundation

/-- Two contexts that differ in their tokens and diagnostics only. -/
def Parser.SameTables (p q : Parser) : Prop :=
  q.heap = p.heap ∧ q.globalTable = p.globalTable ∧ q.ast = p.ast ∧ q.tLableTab = p.tLableTab

instance : Std.Refl Parser.SameTables := ⟨fun _ => ⟨rfl, rfl, rfl, rfl⟩⟩

instance : IsTrans Parser Parser.SameTables :=
  ⟨fun _ _ _ ⟨heap, table, ast, lables⟩ ⟨heap', table', ast', lables'⟩ =>
    ⟨heap'.trans heap, table'.trans table, ast'.trans ast, lables'.trans lables⟩⟩

theorem Parser.SameTables.trans {p q r : Parser} (left : p.SameTables q)
    (right : q.SameTables r) : p.SameTables r := IsTrans.trans _ _ _ left right

namespace SameTables

theorem report (diag : Diag) : Steps Parser.SameTables (report diag) :=
  .modify fun _ => ⟨rfl, rfl, rfl, rfl⟩

theorem pconsume : Steps Parser.SameTables pconsume :=
  .modifyGet fun _ => ⟨rfl, rfl, rfl, rfl⟩

theorem curr : Steps Parser.SameTables curr := .bind .get fun _ => .pure _

theorem ppeak : Steps Parser.SameTables ppeak := .bind .get fun _ => .pure _

theorem isKind (kind : TokenKind) : Steps Parser.SameTables (isKind kind) :=
  .bind .get fun _ => .pure _

theorem deref (token : Option Token) : Steps Parser.SameTables (deref token) := by
  cases token with
  | none => exact .throw _
  | some token => exact .pure _

theorem tokField : Steps Parser.SameTables tokField := .bind curr deref

theorem skip : Steps Parser.SameTables (discard Trident.pconsume) := .discard pconsume

theorem expectAndConsume (kind : TokenKind) :
    Steps Parser.SameTables (expectAndConsume kind) := by
  refine .bind tokField fun token => ?_
  split
  · exact report _
  · exact skip

theorem parseAtomF : Steps Parser.SameTables parseAtomF :=
  .bind pconsume fun _ => .bind (deref _) fun _ => .pure _

theorem exprParsers (fuel : Nat) :
    (∀ prec, Steps Parser.SameTables (parseExprF fuel prec)) ∧
    (∀ prec left, Steps Parser.SameTables (parseExprLoop fuel prec left)) ∧
    Steps Parser.SameTables (parseFunctionCallS fuel) ∧
    Steps Parser.SameTables (parseCallArgs fuel) ∧
    Steps Parser.SameTables (parseUnaryLopS fuel) ∧
    Steps Parser.SameTables (parseLeftF fuel) := by
  induction fuel with
  | zero =>
      exact ⟨fun _ => .throw _, fun _ _ => .throw _, .throw _, .throw _, .throw _, .throw _⟩
  | succ fuel ih =>
      obtain ⟨expr, loop, call, args, unary, left⟩ := ih
      refine ⟨fun prec => ?_, fun prec node => ?_, ?_, ?_, ?_, ?_⟩
      · exact .bind left fun _ => loop _ _
      · refine .bind curr fun tok => ?_
        cases tok with
        | none => exact .pure _
        | some tok =>
            dsimp only
            split
            · exact .bind (report _) fun _ => .throw _
            · split
              · exact .pure _
              · exact .bind skip fun _ => .bind (expr _) fun _ => loop _ _
      · exact .bind tokField fun _ => .bind skip fun _ => .bind (expectAndConsume _) fun _ =>
          .bind args fun _ => .bind (expectAndConsume _) fun _ => .pure _
      · refine .bind tokField fun token => ?_
        split
        · exact .pure _
        · refine .bind (expr _) fun _ => .bind (isKind _) fun comma => ?_
          cases comma
          · exact .bind args fun _ => .pure _
          · exact .bind skip fun _ => .bind args fun _ => .pure _
      · exact .bind pconsume fun _ => .bind (deref _) fun _ => .bind left fun _ => .pure _
      · refine .bind curr fun _ => .bind (deref _) fun token => .bind ppeak fun next => ?_
        split
        · exact .bind (expectAndConsume _) fun _ => .bind (expr _) fun _ =>
            .bind (expectAndConsume _) fun _ => .pure _
        · split
          · exact call
          · split
            · exact unary
            · refine .bind parseAtomF fun _ => .bind tokField fun token => ?_
              split
              · exact .bind skip fun _ => .bind (expr _) fun _ =>
                  .bind (expectAndConsume _) fun _ => .pure _
              · exact .pure _

theorem parseExprF (fuel : Nat) (prec : Precedence) :
    Steps Parser.SameTables (parseExprF fuel prec) := (exprParsers fuel).1 prec

end SameTables

end Trident
