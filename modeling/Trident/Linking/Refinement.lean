import Trident.Linking.Counting
import Trident.Linking.Layout
import Trident.Linking.Runs

/-! A linked program does what the sources of its functions say, through all calls
between them. -/

set_option autoImplicit false

namespace Trident

open Foundation

variable {σ : Type}

namespace LinkedFunction

variable (f : LinkedFunction)

theorem fits_room {room : Nat} (fits : f.fits room = true) : f.frame + 2 ≤ room := by
  rw [LinkedFunction.fits, Bool.and_eq_true] at fits
  exact of_decide_eq_true fits.1

theorem fits_call {room d : Nat} {name : CStr} {args : List Nat} (fits : f.fits room = true)
    (member : .call d name args ∈ f.run.nodes) : f.below args.length + 1 ≤ room := by
  rw [LinkedFunction.fits, Bool.and_eq_true] at fits
  exact of_decide_eq_true (List.all_eq_true.mp fits.2 _ member)

end LinkedFunction

namespace Entered

variable {room : Nat} {live : Word → Bool} {args : List Word} {mem : Mem} {outside : σ}
  {s : AsmState σ}

/-- The activation of a function that is entered in the state `s`. -/
def activation (entered : Entered room live args mem outside s) (f : LinkedFunction)
    (fits : f.fits room = true) : Activation σ where
  entry := s
  params := f.run.params
  nodes := f.run.nodes
  outer addr := live addr = true
  depth := room
  room := f.fits_room fits
  calls _ _ _ member := f.fits_call fits member
  near := entered.near
  apart := entered.apart

/-- The arguments that the function has names for are those that its prologue finds. -/
theorem args_take (entered : Entered room live args mem outside s) (f : LinkedFunction)
    (fits : f.fits room = true) (arity : f.run.params ≤ args.length) :
    args.take f.run.params = (entered.activation f fits).args := by
  refine List.ext_getElem ?_ fun i left right => ?_
  · simp [Activation.args, activation, arity]
  · rw [List.length_take] at left
    have small : i < args.length := by omega
    rw [List.getElem_take, ← entered.args i _ (List.getElem?_eq_getElem small)]
    simp only [Activation.args, List.getElem_map, List.getElem_range]
    rfl

/-- With what its variables hold at first, the function starts in the same memory. -/
theorem agree (entered : Entered room live args mem outside s) (f : LinkedFunction)
    (fits : f.fits room = true) {fresh : Nat → Word}
    (holds : ∀ k < f.nAlloc, s.mem.load (f.cell (s.regs .rsp) k) = fresh k) :
    Mem.AgreeOn (entered.activation f fits).Shared (f.fill (s.regs .rsp) fresh mem) s.mem := by
  obtain ⟨least, size, near⟩ := (entered.activation f fits).sizes
  change f.maxT + f.nAlloc ≤ _ at least
  change _ ≤ room at size
  change room ≤ _ at near
  have place (k : Nat) : f.cell (s.regs .rsp) k = stackWord (s.regs .rsp) (f.maxT + (1 + k) + 1) :=
    (entered.activation f fits).slot_eq _
  have filled (n : Nat) (le : n ≤ f.nAlloc) :
      Mem.AgreeOn (fun addr => live addr = true ∨ ∃ k < n, addr = f.cell (s.regs .rsp) k)
        ((List.range n).foldl (fun mem k => mem.store (f.cell (s.regs .rsp) k) (fresh k)) mem)
        s.mem := by
    induction n with
    | zero => exact entered.shared.mono fun addr => by rintro (member | ⟨k, small, _⟩) <;> tauto
    | succ n ih =>
        have apart (other : Word) (member : live other = true ∨
            ∃ k < n, other = f.cell (s.regs .rsp) k) : Mem.Apart (f.cell (s.regs .rsp) n) other := by
          rw [place]
          obtain member | ⟨k, small, rfl⟩ := member
          · exact entered.apart other member _ (by omega)
          · rw [place]
            exact stackWord_apart (by omega) (by omega) (by omega)
        have copied := (ih (Nat.le_of_succ_le le)).copy apart
        rw [List.range_succ, List.foldl_append, List.foldl_cons, List.foldl_nil, ← holds n le]
        refine copied.mono ?_
        rintro addr (member | ⟨k, small, rfl⟩)
        · exact .inl (.inl member)
        · obtain earlier | rfl := Nat.lt_succ_iff_lt_or_eq.mp small
          · exact .inl (.inr ⟨k, earlier, rfl⟩)
          · exact .inr rfl
  exact filled f.nAlloc (Nat.le_refl _)

end Entered

section

variable {r : Process σ} {room : Nat} {live : Word → Bool} {result : Word × Mem × σ}
  {s : AsmState σ} {name callee : CStr} {rest : List Instr}

/-- A function that is entered in the state `s` does what is said of a call: up to its
`ret` if it was compiled, behind the `ret` otherwise. -/
def Process.Gives (r : Process σ) (room : Nat) (live : Word → Bool) (name : CStr)
    (result : Word × Mem × σ) (s : AsmState σ) : Prop :=
  match r.code name with
  | some code => ∃ rest s', r.Goes (name, code) s (name, .ret :: rest) s' ∧
      Returning room live result s s'
  | none => ∃ s', r.routine name s = some s' ∧ Left room live result s s'

/-- A call, from the `call` to the code behind it. -/
theorem Process.Gives.calls (fetched : r.fetch (r.place name rest) = some (name, rest))
    (gives : r.Gives room live callee result (r.enter r.tick name rest s)) :
    r.Calls name callee rest room live result s := by
  rw [Process.Gives] at gives
  cases known : r.code callee with
  | none =>
      rw [known] at gives
      obtain ⟨s', returns, left⟩ := gives
      exact ⟨s', .one (Image.step_routine known returns), left⟩
  | some code =>
      rw [known] at gives
      obtain ⟨rest', s', goes, returning⟩ := gives
      have target : r.fetch (s'.mem.load (s'.regs .rsp)) = some (name, rest) := by
        rw [returning.back, ← fetched]
        exact congrArg r.fetch (Mem.load_store _ _ _)
      exact ⟨_, .trans (.one (Image.step_enters known)) (goes.trans (.one (Image.step_ret target))),
        returning.left⟩

end

section

variable {p : Program σ} {im : Image σ} {fresh : Nat → Nat → Word} {first : CStr}
  {code : List Instr} {start : AsmState σ}

/-- A call of a compiled function, if the calls that it makes do what is said of them. -/
theorem Program.enter_gives (links : p.LinksTo im) {call : CallMeaning (σ × Nat)} {limit room : Nat}
    (calls : ∀ {caller callee rest room live args mem outside result s},
      let s' := im.counted.enter counting caller rest s
      (∀ global, live (p.global global) = true) →
      (im.counting first code start).Seen (caller, .call callee :: rest) s →
      call room (s'.regs .rsp) live callee args mem outside = some result →
      Entered room live args mem outside s' →
      (im.counting first code start).Gives room live callee result s')
    {name : CStr} {f : LinkedFunction} (known : p.function name = some f) {live : Word → Bool}
    {args : List Word} {mem : Mem} {outside : σ × Nat} {result : Word × Mem × σ × Nat}
    {s : AsmState (σ × Nat)} (globals : ∀ global, live (p.global global) = true)
    (did : p.enter call (fresh outside.2) limit f room (s.regs .rsp) live args mem outside =
      some result)
    (entered : Entered room live args mem outside s) (holds : p.Holds fresh name s)
    (seen : ∀ code', im.code name = some code' → (im.counting first code start).Seen (name, code') s) :
    (im.counting first code start).Gives room live name result s := by
  obtain ⟨code', accepted, found, fetched⟩ := links.compiled name f known
  rw [enter] at did
  split at did
  case isFalse => cases did
  rename_i enough
  obtain ⟨fits, arity⟩ := Bool.and_eq_true_iff.mp enough
  replace arity := of_decide_eq_true arity
  let a := entered.activation f fits
  let w := p.world call f room (s.regs .rsp) live
  let words := f.shared live (s.regs .rsp)
  have same (addr : Word) : words addr = true ↔ a.Shared addr := by
    simp only [words, LinkedFunction.shared, Bool.or_eq_true, List.any_eq_true, List.mem_range,
      beq_iff_eq]
    rfl
  have linked : a.Linked (im.counting first code start) w name code' words := by
    refine ⟨found, links.var name, links.roData name f known, globals, same, ?_⟩
    intro callee args mem outside result rest s' seen called inside entered' top
    have shared (global : CStr) : words (p.global global) = true :=
      (same _).mpr (.inl (globals global))
    have gives := calls shared seen (by
      rw [show (im.counted.enter counting name rest s').regs .rsp = _ from top]
      exact called) entered'
    exact gives.calls (fetched callee rest inside)
  have passed := entered.args_take f fits arity
  obtain ⟨_, g, function⟩ := f.run.functionCode
  have does := function.does w (f.cell (s.regs .rsp)) limit f.run.vars_upTo
    (List.length_take_of_le arity) (f.run.shown_env w (f.cell (s.regs .rsp)))
    ⟨f.fill (s.regs .rsp) (fresh outside.2) mem, outside, []⟩
  cases ran : callLabelled (p.world call f room (s.regs .rsp) live) (f.cell (s.regs .rsp)) limit
      (f.run.vars.env (p.world call f room (s.regs .rsp) live) (f.cell (s.regs .rsp))) f.run.body
      (args.take f.run.params) ⟨f.fill (s.regs .rsp) (fresh outside.2) mem, outside, []⟩ with
  | error =>
      simp only [ran] at did
      cases did
  | ok value? store =>
      cases value? with
      | none =>
          simp only [ran] at did
          cases did
      | some value =>
          simp only [ran] at did
          split at did
          case isFalse => cases did
          case isTrue within =>
            cases did
            rw [ran, passed] at does
            obtain ⟨temps, ends⟩ := does
            have good : a.Good ⟨temps, store⟩ := by
              intro event member
              have inside := List.all_eq_true.mp within event member
              cases event <;> first | trivial | exact (same _).mp inside
            have outside_eq := entered.outside
            subst outside_eq
            rw [Process.Gives, show (im.counting first code start).code name = some code' from found]
            exact linked.returns (fun _ => Iff.rfl) (irFunctionS_valid f.run.accepted) accepted
              (entered.agree f fits (holds f known)) ends good (seen code' found)

/-- What a call in the program gives, the processor gives. -/
theorem Program.call_gives (links : p.LinksTo im) (fits : ∀ caller callee rest s,
      (im.counting first code start).Seen (caller, .call callee :: rest) s →
      p.Holds fresh callee (im.counted.enter counting caller rest s))
    (limit : Nat) {room : Nat} {live : Word → Bool} {name : CStr} {args : List Word} {mem : Mem}
    {outside : σ × Nat} {result : Word × Mem × σ × Nat} {s : AsmState (σ × Nat)}
    (globals : ∀ global, live (p.global global) = true)
    (did : p.call fresh limit room (s.regs .rsp) live name args mem outside = some result)
    (entered : Entered room live args mem outside s) (holds : p.Holds fresh name s)
    (seen : ∀ code', im.code name = some code' → (im.counting first code start).Seen (name, code') s) :
    (im.counting first code start).Gives room live name result s := by
  induction limit generalizing room live name args mem outside result s with
  | zero => cases did
  | succ limit ih =>
      simp only [call] at did
      cases known : p.function name with
      | none =>
          simp only [known] at did
          obtain ⟨⟨value, final, outside'⟩, returns, rfl⟩ := Option.map_eq_some_iff.mp did
          have plain : Entered room live args mem outside.1 s.plain :=
            { args := entered.args
              shared := entered.shared
              outside := congrArg Prod.fst entered.outside
              near := entered.near
              apart := entered.apart }
          obtain ⟨s', returns', left⟩ := links.library name room live args mem outside.1 _ s.plain
            known returns plain
          rw [Process.Gives, show (im.counting first code start).code name = none from
            links.foreign name known]
          refine ⟨s'.counted s.outside.2, Option.map_eq_some_iff.mpr ⟨s', returns', rfl⟩, ?_⟩
          exact
            { rax := left.rax
              rbp := left.rbp
              rsp := left.rsp
              shared := left.shared
              outside := Prod.ext left.outside (show s.outside.2 = outside.2 from congrArg _ entered.outside)
              changed := left.changed }
      | some f =>
          simp only [known] at did
          refine enter_gives links ?_ known globals did entered holds seen
          intro caller callee rest room live args mem outside result s entry globals seen did entered
          refine ih globals did entered (fits caller callee rest s seen) fun code' found => ?_
          exact seen.goes (.one (Image.step_enters found))

end

/-- A program that is linked and whose function is called from outside: whatever the
new variables hold, if the call has a meaning, then the processor returns with it. -/
theorem Program.linked_runs {p : Program σ} {im : Image σ} (links : p.LinksTo im) {room : Nat}
    {live : Word → Bool} {name : CStr} {args : List Word} {mem : Mem} {outside : σ} {s : AsmState σ}
    {code : List Instr} (globals : ∀ global, live (p.global global) = true)
    (entered : Entered room live args mem outside s) (found : im.code name = some code)
    (leaves : im.fetch (s.mem.load (s.regs .rsp)) = none) (post : Word → Mem → σ → Prop)
    (means : ∀ fresh, ∃ limit value final outside' calls,
      p.call fresh limit room (s.regs .rsp) live name args mem (outside, 0) =
        some (value, final, outside', calls) ∧ post value final outside') :
    ∃ s' value final outside', post value final outside' ∧
      Ends im.step (name, code) s (.ok (s.mem.load (s.regs .rsp)) s') ∧
      Left room live (value, final, outside') s s' := by
  obtain ⟨fresh, holds, later⟩ := p.exists_fresh im name code s
  obtain ⟨limit, value, final, outside', calls, did, holds'⟩ := means fresh
  have counted : Entered room live args mem (outside, 0) (s.counted 0) :=
    { args := entered.args
      shared := entered.shared
      outside := Prod.ext entered.outside rfl
      near := entered.near
      apart := entered.apart }
  have gives := p.call_gives links later limit globals did counted holds fun code' found' => by
    cases found.symm.trans found'
    exact Leads.refl _ _
  rw [Process.Gives, show (im.counting name code s).code name = some code from found] at gives
  obtain ⟨rest, s', goes, returning⟩ := gives
  obtain ⟨⟨n, path⟩, _⟩ := goes_plain goes
  have target : s'.plain.mem.load (s'.plain.regs .rsp) = s.mem.load (s.regs .rsp) := returning.back
  have last : im.step (name, .ret :: rest) s'.plain = .ok (.done (s'.plain.mem.load (s'.plain.regs .rsp)))
      (s'.plain.setReg .rsp (s'.plain.regs .rsp + 8)) := Image.step_last (target ▸ leaves)
  rw [target] at last
  have left := returning.left
  refine ⟨_, value, final, outside', holds', ⟨n, _, _, path, last⟩, ?_⟩
  exact
    { rax := left.rax
      rbp := left.rbp
      rsp := left.rsp
      shared := left.shared
      outside := congrArg Prod.fst left.outside
      changed := left.changed }

/-- Without variables on the stack nothing depends on what they hold at first. -/
theorem Program.call_fresh {p : Program σ} (none : ∀ name f, p.function name = some f → f.nAlloc = 0)
    (fresh fresh' : Nat → Nat → Word) (limit : Nat) : p.call fresh limit = p.call fresh' limit := by
  induction limit with
  | zero => rfl
  | succ limit ih =>
      funext room sp live name args mem outside
      simp only [call]
      cases known : p.function name with
      | none => rfl
      | some f =>
          have empty (row : Nat → Word) : f.fill sp row mem = mem := by
            rw [LinkedFunction.fill, none name f known]
            rfl
          simp only [enter, ih, empty]

/-- Two modules: a function that counts its calls, and one that calls it. -/
def nextFunction : LinkedFunction where
  run := (FunctionRun.first? (sourceTokens
    "next() \x7b extrn v; v = v + 1; return v; \x7d v;".toList) "next.b").get (by decide +kernel)
  roData _ := 0

def mainFunction : LinkedFunction where
  run := (FunctionRun.first? (sourceTokens
    "main() \x7b next(); return next() + 1; \x7d".toList) "main.b").get (by decide +kernel)
  roData _ := 0

def twoModules : Program Unit where
  global _ := 4096
  function name :=
    if name = mainFunction.run.name then some mainFunction
    else if name = nextFunction.run.name then some nextFunction
    else none
  library _ _ _ _ _ _ _ := none

private theorem twoModules_some {name : CStr} {f : LinkedFunction} (known : twoModules.function name = some f) :
    name = mainFunction.run.name ∧ f = mainFunction ∨ name = nextFunction.run.name ∧ f = nextFunction := by
  rw [twoModules] at known
  dsimp only at known
  split at known
  next same => exact .inl ⟨same, (Option.some.inj known).symm⟩
  next =>
    split at known
    next same => exact .inr ⟨same, (Option.some.inj known).symm⟩
    next => exact absurd known (by simp)

def twoImage : Image Unit :=
  twoModules.image [mainFunction.run.name, nextFunction.run.name]
    (fun name rest => BitVec.ofNat 64 ((if name = mainFunction.run.name then 65536 else 131072) - rest.length))
    fun _ _ => none

private theorem twoImage_links : twoModules.LinksTo twoImage := by
  refine Program.image_linksTo (fun name f known => ?_) ?_ (fun name room live args mem outside result s
    none impossible => ?_)
  · obtain ⟨same, _⟩ | ⟨same, _⟩ := twoModules_some known
    · exact List.mem_cons.mpr (.inl same)
    · exact List.mem_cons_of_mem _ (List.mem_singleton.mpr same)
  · decide +kernel
  · cases impossible

/-- The processor in front of `main`, with a return address outside of the program. -/
def twoEntry : AsmState Unit where
  regs reg := if reg = .rsp then 32768 else 0
  flags := none
  mem _ := 0
  outside := ()

theorem Program.linked_runs_two : ∃ s',
    Ends twoImage.step (mainFunction.run.name, (twoImage.code mainFunction.run.name).getD [])
      twoEntry (.ok 0 s') ∧ s'.regs .rax = 3 ∧ s'.mem.load 4096 = 2 := by
  let live (addr : Word) : Bool := addr == 4096
  have entered : Entered 64 live [] twoEntry.mem () twoEntry :=
    { args := by simp
      shared := .refl _ _
      outside := rfl
      near := by decide
      apart := by
        intro addr member k small
        obtain rfl := beq_iff_eq.mp member
        revert k
        decide +kernel }
  have noVars (name : CStr) (f : LinkedFunction) (known : twoModules.function name = some f) :
      f.nAlloc = 0 := by
    obtain ⟨_, rfl⟩ | ⟨_, rfl⟩ := twoModules_some known <;> decide +kernel
  have found : twoImage.code mainFunction.run.name =
      some ((twoImage.code mainFunction.run.name).getD []) := by
    have some : (twoImage.code mainFunction.run.name).isSome := by decide +kernel
    exact (Option.some_get some).symm.trans (by rw [Option.get_eq_getD])
  have value : ((twoModules.call (fun _ _ => 0) 3 64 (twoEntry.regs .rsp) live mainFunction.run.name []
      twoEntry.mem ((), 0)).map fun result => (result.1, result.2.1.load 4096)) = some (3, 2) := by
    decide +kernel
  obtain ⟨⟨value, final, outside', calls⟩, did, same⟩ := Option.map_eq_some_iff.mp value
  obtain ⟨result, counted⟩ := Prod.mk.inj same
  have globals (global : CStr) : live (twoModules.global global) = true :=
    beq_self_eq_true (4096 : Word)
  have means (fresh : Nat → Nat → Word) : ∃ limit value final outside' calls,
      twoModules.call fresh limit 64 (twoEntry.regs .rsp) live mainFunction.run.name [] twoEntry.mem
        ((), 0) = some (value, final, outside', calls) ∧ value = 3 ∧ final.load 4096 = 2 := by
    refine ⟨3, value, final, outside', calls, ?_, result, counted⟩
    rw [Program.call_fresh noVars fresh fun _ _ => 0]
    exact did
  have leaves : twoImage.fetch (twoEntry.mem.load (twoEntry.regs .rsp)) = none := by decide +kernel
  obtain ⟨s', value', final', outside'', ⟨same, stored⟩, ends, left⟩ := Program.linked_runs twoImage_links
    globals entered found leaves
    (fun value mem _ => value = 3 ∧ mem.load 4096 = 2) means
  have shared : final'.load 4096 = s'.mem.load 4096 := left.shared.load (beq_self_eq_true _)
  have back : twoEntry.mem.load (twoEntry.regs .rsp) = 0 := by decide +kernel
  rw [back] at ends
  exact ⟨s', ends, left.rax.trans same, shared.symm.trans stored⟩

end Trident
