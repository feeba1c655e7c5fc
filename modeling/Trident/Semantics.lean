import Trident.Token
import Trident.Foundation.Memory
import Trident.Foundation.StateResult

/-! What a compiled function works on: a byte memory, and the program around it
with the functions it calls. Source programs and IR programs act on the same
store, and leave a trace of what they do to it. -/

set_option autoImplicit false

namespace Trident

open Foundation

/-- The program around a function: addresses of globals and of literals, and
what a called function does to the memory and to the outside world. A function
that does not return gives `none`. -/
structure World (σ : Type) where
  global : CStr → Word
  roData : Nat → Word
  callee : CStr → List Word → Mem → σ → Option (Word × Mem × σ)

inductive Event where
  | value (value : Word)
  | load (addr value : Word)
  | store (addr value : Word)
  | call (name : CStr) (args : List Word)
  | test (value : Word)
  deriving DecidableEq, Repr

structure Store (σ : Type) where
  mem : Mem
  outside : σ
  trace : List Event := []

/-- Why a run stops before its function returns. -/
inductive Halt where
  | trap | noReturn | undefined
  deriving DecidableEq, Repr

variable {σ : Type}

abbrev StoreM (σ : Type) := EStateM Halt (Store σ)

def Store.log (store : Store σ) (event : Event) : Store σ :=
  { store with trace := store.trace ++ [event] }

def compute (value : Word) : StoreM σ Word := do
  modify (·.log (.value value))
  return value

def loadWord (addr : Word) : StoreM σ Word := do
  let value := (← get).mem.load addr
  modify (·.log (.load addr value))
  return value

def storeWord (addr value : Word) : StoreM σ Unit :=
  modify fun store => { store.log (.store addr value) with mem := store.mem.store addr value }

def testWord (value : Word) : StoreM σ Bool := do
  modify (·.log (.test value))
  return value ≠ 0

def callOut (w : World σ) (name : CStr) (args : List Word) : StoreM σ Word := do
  modify (·.log (.call name args))
  let store ← get
  match w.callee name args store.mem store.outside with
  | none => throw .noReturn
  | some (value, mem, outside) =>
      set { store with mem, outside }
      return value

/-- A truth value as comparisons produce it. -/
def truth (holds : Bool) : Word := if holds then 1 else 0

/-- The number of places a shift moves its operand. -/
def shiftCount (count : Word) : Nat := count.toNat % 64

/-- The operands on which signed division traps. -/
def divisionTraps (left right : Word) : Bool :=
  right == 0 || (left == BitVec.intMin 64 && right == -1)

end Trident
