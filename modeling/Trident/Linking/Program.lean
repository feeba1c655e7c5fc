import Trident.Ir.Jumps
import Trident.Amd64.Calls

/-! A program of several modules: functions that call each other by name, each with
the meaning that its source has. What a call does depends on the stack, since the
variables of a function lie in its frame. -/

set_option autoImplicit false

namespace Trident

open Foundation

variable {σ : Type}

/-- A compiled function, with the addresses that its module's literals got. -/
structure LinkedFunction where
  run : FunctionRun
  roData : Nat → Word

namespace LinkedFunction

variable (f : LinkedFunction)

def maxT : Nat := maxTemp f.run.params f.run.nodes

def nAlloc : Nat := countAllocs f.run.nodes

/-- The number of words below the base pointer. -/
def frame : Nat := frameWords f.maxT f.nAlloc

/-- Where the variables are if the return address is at `sp`. -/
def cell (sp : Word) (k : Nat) : Word := stackWord (sp - 8) (f.maxT + (1 + k))

/-- The words that the function may use, of which `live` are those of its callers. -/
def shared (live : Word → Bool) (sp addr : Word) : Bool :=
  live addr || (List.range f.nAlloc).any fun k => addr == f.cell sp k

/-- The memory at the entry. What the variables hold that were not assigned yet is not
known: it is whatever is left in the words of the stack. -/
def fill (sp : Word) (fresh : Nat → Word) (mem : Mem) : Mem :=
  (List.range f.nAlloc).foldl (fun mem k => mem.store (f.cell sp k) (fresh k)) mem

/-- The words of the stack from the return address of the function down to that of a
function that it calls with `argc` arguments. -/
def below (argc : Nat) : Nat := f.frame + callWords argc + 2

/-- There is room on the stack for the frame and for the arguments of all calls. -/
def fits (room : Nat) : Bool :=
  decide (f.frame + 2 ≤ room) && f.run.nodes.all fun node =>
    match node with
    | .call _ _ args => decide (f.below args.length + 1 ≤ room)
    | _ => true

end LinkedFunction

/-- A load or a store goes to one of these words. -/
def Event.inside (words : Word → Bool) : Event → Bool
  | .load addr _ => words addr
  | .store addr _ => words addr
  | _ => true

/-- What a call of a function gives, from the number of words that the stack has left,
the address of the return address on it, and the words that the program may use. -/
abbrev CallMeaning (σ : Type) :=
  (room : Nat) → (sp : Word) → (live : Word → Bool) → CStr → List Word → Mem → σ →
    Option (Word × Mem × σ)

/-- The calls made so far are counted beside the outside of the program. -/
def counting (outside : σ × Nat) : σ × Nat := (outside.1, outside.2 + 1)

/-- The addresses of the globals, the functions, and what is known of the functions
that are not compiled from B. -/
structure Program (σ : Type) where
  global : CStr → Word
  function : CStr → Option LinkedFunction
  library : CallMeaning σ

namespace Program

variable (p : Program σ)

/-- The world of a function, whose calls have the meaning `call`. -/
def world (call : CallMeaning (σ × Nat)) (f : LinkedFunction) (room : Nat) (sp : Word)
    (live : Word → Bool) : World (σ × Nat) where
  global := p.global
  roData := f.roData
  callee name args mem outside := call (room - f.below args.length)
    (stackWord sp (f.below args.length)) (f.shared live sp) name args mem (counting outside)

/-- A call of a compiled function, whose variables hold `fresh` at first. There is no
result if the stack is too small, an argument is missing, or a load or store goes to
none of the words that the program may use. -/
def enter (call : CallMeaning (σ × Nat)) (fresh : Nat → Word) (limit : Nat) (f : LinkedFunction)
    (room : Nat) (sp : Word) (live : Word → Bool) (args : List Word) (mem : Mem)
    (outside : σ × Nat) : Option (Word × Mem × σ × Nat) :=
  let w := p.world call f room sp live
  if f.fits room && decide (f.run.params ≤ args.length) then
    match callLabelled w (f.cell sp) limit (f.run.vars.env w (f.cell sp)) f.run.body
        (args.take f.run.params) ⟨f.fill sp fresh mem, outside, []⟩ with
    | .ok (some value) store =>
        if store.trace.all (·.inside (f.shared live sp)) then some (value, store.mem, store.outside)
        else none
    | _ => none
  else none

/-- A call in the program, cut short after `limit` turns of a loop or nested calls. The
variables of the function entered by the `n`-th call hold `fresh n` at first. -/
def call (fresh : Nat → Nat → Word) : (limit : Nat) → CallMeaning (σ × Nat)
  | 0 => fun _ _ _ _ _ _ _ => none
  | limit + 1 => fun room sp live name args mem outside =>
      match p.function name with
      | none => (p.library room sp live name args mem outside.1).map fun result =>
          (result.1, result.2.1, result.2.2, outside.2)
      | some f => p.enter (call fresh limit) (fresh outside.2) limit f room sp live args mem outside

end Program

end Trident
