import Trident.Amd64.Footprint

/-! The processor on a linked program: the code of all functions, with calls that
enter the callee and returns to the address on the stack. -/

set_option autoImplicit false

namespace Trident

open Foundation

variable {σ : Type}

/-- A linked program in memory. `place` gives the address of the rest of the code of a
function, and `fetch` what stands at a return address. A routine that was not compiled
from B is known by the state after its `ret`, or `none` if it does not return. -/
structure Image (σ : Type) where
  code : CStr → Option (List Instr)
  address : CStr → Symbol → Word
  place : CStr → List Instr → Word
  fetch : Word → Option (CStr × List Instr)
  routine : CStr → AsmState σ → Option (AsmState σ)

namespace Image

variable (im : Image σ)

/-- What the instructions of a function refer to, but for the functions called. -/
def world (name : CStr) : AsmWorld σ where
  address := im.address name
  codeAddr := im.place name
  callee _ _ := none

/-- The state in which a routine is entered. A call changes nothing outside of the
program, `tick` is `id`, but for proofs that count the calls there. -/
def enter (tick : σ → σ) (name : CStr) (rest : List Instr) (s : AsmState σ) : AsmState σ :=
  { s.push (im.place name rest) with outside := tick s.outside }

/-- A step inside of the function `name`. -/
def within (name : CStr) (ahead : List Instr) : AsmM σ (Next (CStr × List Instr) Word) := do
  match ← asmStep (im.world name) ((im.code name).getD []) ahead with
  | .more rest => return .more (name, rest)
  | .done target => return .done target

/-- One step of the processor, in the function `name` with the instructions given
still ahead. A return to an address outside of the program ends the run. -/
def stepWith (tick : σ → σ) :
    CStr × List Instr → AsmM σ (Next (CStr × List Instr) Word)
  | (name, .call callee :: rest) => fun s =>
      let entered := im.enter tick name rest s
      match im.code callee with
      | some code => .ok (.more (callee, code)) entered
      | none =>
          match im.routine callee entered with
          | some returned => .ok (.more (name, rest)) returned
          | none => .error .noReturn entered
  | (_, .ret :: _) => fun s =>
      let target := s.mem.load (s.regs .rsp)
      let left := s.setReg .rsp (s.regs .rsp + 8)
      match im.fetch target with
      | some position => .ok (.more position) left
      | none => .ok (.done target) left
  | (name, ahead) => im.within name ahead

abbrev step : CStr × List Instr → AsmM σ (Next (CStr × List Instr) Word) := im.stepWith id

variable {im} {tick : σ → σ} {name callee : CStr} {rest : List Instr} {s : AsmState σ}

theorem step_enters {code : List Instr} (found : im.code callee = some code) :
    im.stepWith tick (name, .call callee :: rest) s =
      .ok (.more (callee, code)) (im.enter tick name rest s) := by
  simp only [stepWith, found]

theorem step_routine {returned : AsmState σ} (found : im.code callee = none)
    (returns : im.routine callee (im.enter tick name rest s) = some returned) :
    im.stepWith tick (name, .call callee :: rest) s = .ok (.more (name, rest)) returned := by
  simp only [stepWith, found, returns]

theorem step_stuck (found : im.code callee = none)
    (returns : im.routine callee (im.enter tick name rest s) = none) :
    im.stepWith tick (name, .call callee :: rest) s =
      .error .noReturn (im.enter tick name rest s) := by
  simp only [stepWith, found, returns]

theorem step_ret {position : CStr × List Instr}
    (fetched : im.fetch (s.mem.load (s.regs .rsp)) = some position) :
    im.stepWith tick (name, .ret :: rest) s =
      .ok (.more position) (s.setReg .rsp (s.regs .rsp + 8)) := by
  simp only [stepWith, fetched]

theorem step_last (fetched : im.fetch (s.mem.load (s.regs .rsp)) = none) :
    im.stepWith tick (name, .ret :: rest) s =
      .ok (.done (s.mem.load (s.regs .rsp))) (s.setReg .rsp (s.regs .rsp + 8)) := by
  simp only [stepWith, fetched]

end Image

/-- A run of the processor, from a place of an image on. -/
structure Process (σ : Type) extends Image σ where
  tick : σ → σ
  first : CStr × List Instr
  origin : AsmState σ

namespace Process

variable (r : Process σ)

def Goes : CStr × List Instr → AsmState σ → CStr × List Instr → AsmState σ → Prop :=
  Leads (r.stepWith r.tick)

/-- The run gets to this place. -/
def Seen (position : CStr × List Instr) (s : AsmState σ) : Prop :=
  r.Goes r.first r.origin position s

variable {r} {name : CStr} {code position position' : List Instr} {s s' : AsmState σ}

theorem Seen.goes {here there : CStr × List Instr} (seen : r.Seen here s)
    (goes : r.Goes here s there s') : r.Seen there s' := seen.trans goes

/-- Inside of a function the processor does the steps of the function. -/
theorem step_more (found : r.code name = some code)
    (stepped : asmStep (r.world name) code position s = .ok (.more position') s') :
    r.stepWith r.tick (name, position) s = .ok (.more (name, position')) s' := by
  have inside : r.within name position s = .ok (.more (name, position')) s' := by
    rw [Image.within, found, Option.getD_some, bind_run_of_ok stepped]
    rfl
  cases position with
  | nil => cases stepped
  | cons instr rest =>
      cases instr with
      | call callee => cases stepped
      | ret => cases stepped
      | _ => exact inside

theorem goes_path {n : Nat} (found : r.code name = some code)
    (path : Path (asmStep (r.world name) code) n position s position' s') :
    r.Goes (name, position) s (name, position') s' := by
  induction path with
  | refl => exact .refl _ _
  | cons stepped _ ih => exact .trans (.one (step_more found stepped)) ih

theorem goes_lines {lines rest : List Instr} (found : r.code name = some code)
    (ran : execInstrs (r.world name) lines s = .ok s') :
    r.Goes (name, lines ++ rest) s (name, rest) s' := by
  have path : Path (asmStep (r.world name) code) _ (lines ++ rest) s rest s' := path_instrs ran
  exact goes_path found path

end Process

end Trident
