import Mathlib.Data.List.Infix
import Trident.Linking.Calls
import Trident.Linking.Program

/-! The image of a program: the code of its functions in one memory. -/

set_option autoImplicit false

namespace Trident

open Foundation

variable {σ : Type}

/-- The image holds the code of all functions of the program, and what stands at the
return address of a call is the code behind the call. The other routines do what the
program takes them for. -/
structure Program.LinksTo (p : Program σ) (im : Image σ) : Prop where
  compiled : ∀ name f, p.function name = some f → ∃ code,
    asmFunction f.run.params f.run.nodes = .ok code ∧ im.code name = some code ∧
      ∀ callee rest, .call callee :: rest <:+ code →
        im.fetch (im.place name rest) = some (name, rest)
  var : ∀ name global, im.address name (.var global) = p.global global
  roData : ∀ name f, p.function name = some f → ∀ id, im.address name (.roData id) = f.roData id
  foreign : ∀ name, p.function name = none → im.code name = none
  library : ∀ name room live args mem outside result s, p.function name = none →
    p.library room (s.regs .rsp) live name args mem outside = some result →
    Entered room live args mem outside s →
    ∃ s', im.routine name s = some s' ∧ Left room live result s s'

/-- The code behind a call. -/
def returnPoint : List Instr → Option (List Instr)
  | .call _ :: rest => some rest
  | _ => none

namespace Program

variable (p : Program σ)

def codeOf (name : CStr) : Option (List Instr) :=
  (p.function name).bind fun f => (asmFunction f.run.params f.run.nodes).toOption

/-- The places behind the calls of the functions `names`. -/
def returnPoints (names : List CStr) : List (CStr × List Instr) :=
  names.flatMap fun name =>
    (((p.codeOf name).getD []).tails.filterMap returnPoint).map fun rest => (name, rest)

def symbolAddress (name : CStr) : Symbol → Word
  | .var global => p.global global
  | .roData id => ((p.function name).map (·.roData id)).getD 0

/-- The image of a program that has the functions `names`, with its code where `place`
says. -/
def image (names : List CStr) (place : CStr → List Instr → Word)
    (routine : CStr → AsmState σ → Option (AsmState σ)) : Image σ where
  code := p.codeOf
  address := p.symbolAddress
  place := place
  fetch addr := (p.returnPoints names).find? fun point => place point.1 point.2 == addr
  routine := routine

variable {p} {names : List CStr} {place : CStr → List Instr → Word}
  {routine : CStr → AsmState σ → Option (AsmState σ)}

theorem mem_returnPoints {name callee : CStr} {code rest : List Instr} (listed : name ∈ names)
    (found : p.codeOf name = some code) (inside : .call callee :: rest <:+ code) :
    (name, rest) ∈ p.returnPoints names := by
  refine List.mem_flatMap.mpr ⟨name, listed, List.mem_map.mpr ⟨rest, ?_, rfl⟩⟩
  rw [found]
  exact List.mem_filterMap.mpr ⟨_, (List.mem_tails _ _).mpr inside, rfl⟩

/-- It is enough that no two calls return to the same address. -/
theorem image_linksTo (listed : ∀ name f, p.function name = some f → name ∈ names)
    (distinct : ∀ point ∈ p.returnPoints names, ∀ other ∈ p.returnPoints names,
      place other.1 other.2 = place point.1 point.2 → other = point)
    (library : ∀ name room live args mem outside result s, p.function name = none →
      p.library room (s.regs .rsp) live name args mem outside = some result →
      Entered room live args mem outside s →
      ∃ s', routine name s = some s' ∧ Left room live result s s') :
    p.LinksTo (p.image names place routine) where
  compiled name f known := by
    obtain ⟨code, accepted⟩ : ∃ code, asmFunction f.run.params f.run.nodes = .ok code := by
      obtain ⟨body, generated⟩ := Activation.asmNodes_accepts (irFunctionS_valid f.run.accepted)
        (maxTemp f.run.params f.run.nodes) 1
      refine ⟨asmPrologue f.run.params (maxTemp f.run.params f.run.nodes) (countAllocs f.run.nodes) ++
        body, ?_⟩
      rw [asmFunction]
      rw [generated]
      rfl
    have found : p.codeOf name = some code := by rw [codeOf, known, Option.bind_some, accepted]; rfl
    refine ⟨code, accepted, found, fun callee rest inside => ?_⟩
    have member := mem_returnPoints (listed name f known) found inside
    obtain ⟨point, first⟩ : ∃ point, (p.returnPoints names).find?
        (fun point => place point.1 point.2 == place name rest) = some point := by
      rw [← Option.isSome_iff_exists, List.find?_isSome]
      exact ⟨_, member, beq_self_eq_true _⟩
    have found_at := List.find?_some first
    have same := distinct _ member point (List.mem_of_find?_eq_some first) (beq_iff_eq.mp found_at)
    exact first.trans (congrArg some same)
  var _ _ := rfl
  roData name f known id := by
    change ((p.function name).map (·.roData id)).getD 0 = _
    rw [known]
    rfl
  foreign name none := by
    change (p.function name).bind _ = _
    rw [none]
    rfl
  library := library

end Program

end Trident
