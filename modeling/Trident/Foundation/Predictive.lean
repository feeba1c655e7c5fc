import Mathlib.Tactic.TypeStar

/-! Predictive reading: the tokens in front decide what the part of a text that comes next
is made of, so that no choice is ever taken back. -/

set_option autoImplicit false

namespace Foundation

/-- What the next part comes to. -/
inductive Turn (Part Token : Type*) where
  /-- The part stands for others, behind tokens that it takes itself. -/
  | opens (parts : List Part) (rest : List Token)
  /-- The reading ends here. -/
  | stops
  /-- What the part needs is missing. -/
  | lacks
  deriving DecidableEq

section

variable {Part Token : Type*} {turn : Part → List Token → Turn Part Token} {part : Part}
  {parts more : List Part} {tokens rest : List Token}

/-- The parts are read from the tokens, one after the other, to the last or to a stop. -/
inductive Readable (turn : Part → List Token → Turn Part Token) : List Part → List Token → Prop where
  | done (tokens : List Token) : Readable turn [] tokens
  | stop {part : Part} {parts : List Part} {tokens : List Token} : turn part tokens = .stops →
      Readable turn (part :: parts) tokens
  | step {part : Part} {parts more : List Part} {tokens rest : List Token} :
      turn part tokens = .opens more rest → Readable turn (more ++ parts) rest →
      Readable turn (part :: parts) tokens

/-- There is one way to go on. -/
theorem Readable.opens_iff (opens : turn part tokens = .opens more rest) :
    Readable turn (part :: parts) tokens ↔ Readable turn (more ++ parts) rest := by
  constructor
  · intro readable
    cases readable with
    | stop stops => cases opens.symm.trans stops
    | step opens' readable =>
        cases opens.symm.trans opens'
        exact readable
  · exact .step opens

theorem Readable.not_of_lacks (lacks : turn part tokens = .lacks) :
    ¬ Readable turn (part :: parts) tokens := by
  intro readable
  cases readable with
  | stop stops => cases lacks.symm.trans stops
  | step opens _ => cases lacks.symm.trans opens

/-- The reading of no more than `limit` parts, as a function. -/
def readsWithin (turn : Part → List Token → Turn Part Token) : Nat → List Part → List Token → Bool
  | 0, _, _ => false
  | _ + 1, [], _ => true
  | limit + 1, part :: parts, tokens =>
      match turn part tokens with
      | .opens more rest => readsWithin turn limit (more ++ parts) rest
      | .stops => true
      | .lacks => false

theorem Readable.of_readsWithin {limit : Nat} (reads : readsWithin turn limit parts tokens = true) :
    Readable turn parts tokens := by
  induction limit generalizing parts tokens with
  | zero => cases reads
  | succ limit ih =>
      cases parts with
      | nil => exact .done tokens
      | cons part parts =>
          rw [readsWithin] at reads
          split at reads
          next more rest opens => exact .step opens (ih reads)
          next stops => exact .stop stops
          next => cases reads

end

end Foundation
