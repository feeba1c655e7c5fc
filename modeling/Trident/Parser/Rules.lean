import Trident.Foundation.Guarded
import Trident.Parser.Chains

/-! Rules for runs of the token operations, one for each way the next token can be. -/

set_option autoImplicit false

namespace Trident

open Foundation

variable {α : Type} {post : α → Parser → Prop} {failed : Stop → Parser → Prop} {p : Parser}
  {token : Token} {rest : List Token}

theorem curr_ends {next : Option Token → ParseM α}
    (ended : p.tok = [] → RunEnds post failed (next none) p)
    (at_ : ∀ token rest, p.tok = token :: rest → RunEnds post failed (next (some token)) p) :
    RunEnds post failed (curr >>= next) p := by
  change RunEnds post failed (next p.tok.head?) p
  cases tokens : p.tok with
  | nil => exact ended tokens
  | cons token rest => exact at_ token rest tokens

theorem ppeak_ends {next : Option Token → ParseM α}
    (second : RunEnds post failed (next p.tok.tail.head?) p) :
    RunEnds post failed (ppeak >>= next) p := second

/-- `curr(p)->...` -/
theorem current_ends {next : Token → ParseM α} (null : p.tok = [] → failed (.fault .nullToken) p)
    (at_ : ∀ token rest, p.tok = token :: rest → RunEnds post failed (next token) p) :
    RunEnds post failed (do next (← deref (← curr))) p := curr_ends null at_

theorem tokField_ends {next : Token → ParseM α} (null : p.tok = [] → failed (.fault .nullToken) p)
    (at_ : ∀ token rest, p.tok = token :: rest → RunEnds post failed (next token) p) :
    RunEnds post failed (tokField >>= next) p := by
  rw [tokField, bind_assoc]
  exact current_ends null at_

/-- No token of the kind is next. -/
def NextNot (kind : TokenKind) (rest : List Token) : Prop := ∀ next ∈ rest.head?, next.kind ≠ kind

theorem isKind_ends {kind : TokenKind} {next : Bool → ParseM α}
    (other : NextNot kind p.tok → RunEnds post failed (next false) p)
    (found : ∀ token rest, p.tok = token :: rest → token.kind = kind →
      RunEnds post failed (next true) p) :
    RunEnds post failed (isKind kind >>= next) p := by
  change RunEnds post failed (next (p.tok.head?.any fun token => token.kind == kind)) p
  cases tokens : p.tok with
  | nil => exact other (by simp [NextNot, tokens])
  | cons token rest =>
      rw [List.head?_cons, Option.any_some]
      cases same : token.kind == kind with
      | false => exact other (by simpa [NextNot, tokens] using same)
      | true => exact found token rest tokens (beq_iff_eq.mp same)

theorem skip_ends {next : PUnit → ParseM α} (at_ : p.tok = token :: rest)
    (second : RunEnds post failed (next ⟨⟩) (p.reading rest)) :
    RunEnds post failed (discard pconsume >>= next) p := by
  change RunEnds post failed (next ⟨⟩) (p.reading p.tok.tail)
  rw [at_]
  exact second

/-- `pconsume(p)->...` -/
theorem pconsume_ends {next : Token → ParseM α} (null : p.tok = [] → failed (.fault .nullToken) p)
    (second : ∀ token rest, p.tok = token :: rest → RunEnds post failed (next token) (p.reading rest)) :
    RunEnds post failed (do next (← deref (← pconsume))) p := by
  change RunEnds post failed (deref p.tok.head? >>= next) (p.reading p.tok.tail)
  cases tokens : p.tok with
  | nil =>
      have same : p.reading [] = p := by rw [← tokens]; rfl
      change failed (.fault .nullToken) (p.reading [])
      rw [same]
      exact null tokens
  | cons token rest => exact second token rest tokens

theorem parseAtomF_ends {next : AstNode → ParseM α} (at_ : p.tok = token :: rest)
    (second : RunEnds post failed (next token.atomNode) (p.reading rest)) :
    RunEnds post failed (parseAtomF >>= next) p := by
  have same : p = p.reading (token :: rest) := by rw [← at_]; rfl
  rw [same]
  exact second

/-- The context after a diagnostic. -/
def Parser.reporting (p : Parser) (diag : Diag) : Parser := { p with stderr := p.stderr ++ [diag] }

theorem expectAndConsume_ends {kind : TokenKind} {next : PUnit → ParseM α}
    (null : p.tok = [] → failed (.fault .nullToken) p)
    (other : ∀ token rest, p.tok = token :: rest → token.kind ≠ kind →
      RunEnds post failed (next ⟨⟩) (p.reporting (.expected token.position kind token.kind)))
    (found : ∀ token rest, p.tok = token :: rest → token.kind = kind →
      RunEnds post failed (next ⟨⟩) (p.reading rest)) :
    RunEnds post failed (expectAndConsume kind >>= next) p := by
  rw [expectAndConsume, bind_assoc]
  refine tokField_ends null fun token rest at_ => ?_
  split
  next different => exact other token rest at_ (Ne.symm different)
  next same => exact skip_ends at_ (found token rest at_ (not_not.mp same).symm)

end Trident
