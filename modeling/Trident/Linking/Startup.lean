import Trident.Linking.Objects

/-! The runtime `brt.b` and `brt.asm`: the start of a process, and its exit. -/

set_option autoImplicit false

namespace Trident

open Foundation

variable {σ : Type}

/-- `brt.b`. -/
def brt : List Char := "__call_main() \x7b\n  extrn main;\n  return main();\n\x7d\n".toList

def startName : CStr := some ("_start".toList.map byte)

def callMainName : CStr := some ("__call_main".toList.map byte)

def mainName : CStr := some ("main".toList.map byte)

def exitName : CStr := some ("exit".toList.map byte)

/-- `_start`. -/
def startCode : List Instr := [.call callMainName, .call exitName]

/-- `exit`, up to its system call. -/
def exitCode : List Instr := [.mov (.reg .rdi) (.reg .rax), .mov (.reg .rax) (.imm 0x3C)]

/-- The number of the system call `exit`. -/
def sysExit : Word := 60

def callMainRun : FunctionRun := (FunctionRun.at? (sourceTokens brt) "brt.b" 0).get (by decide +kernel)

/-- The body of a function that only returns what it calls. -/
def returnsCall (name : CStr) : List AstNode → Bool
  | [.extrn declared, .return_ (some (.functionCall called []))] => declared == name && called == name
  | _ => false

private theorem eq_of_returnsCall {name : CStr} {body : List AstNode} (test : returnsCall name body = true) :
    body = [.extrn name, .return_ (some (.functionCall name []))] := by
  unfold returnsCall at test
  split at test
  · obtain ⟨declared, called⟩ := Bool.and_eq_true_iff.mp test
    rw [eq_of_beq declared, eq_of_beq called]
  · cases test

private theorem callMainRun_facts : callMainRun.tokens = sourceTokens brt ∧ callMainRun.module = "brt.b" ∧
    callMainRun.name = callMainName ∧ callMainRun.params = 0 ∧
    callMainRun.nodes = [.label 1, .call 1 mainName [], .ret 1] ∧
    functionNames callMainRun.parser.ast = [callMainName] := by
  decide +kernel

private theorem callMainRun_body :
    callMainRun.body = [.extrn mainName, .return_ (some (.functionCall mainName []))] :=
  eq_of_returnsCall (by decide +kernel)

section

variable {p : Program σ} {f : LinkedFunction} {fresh : Nat → Nat → Word} {limit room : Nat} {sp : Word}
  {live : Word → Bool} {args : List Word} {mem : Mem} {outside : σ × Nat} {result : Word × Mem × σ × Nat}

/-- A call of a compiled function, from the run of its body. -/
theorem Program.call_eq {name : CStr} {value : Word} {store : Store (σ × Nat)}
    (known : p.function name = some f) (fits : f.fits room = true) (arity : f.run.params ≤ args.length)
    (ran : let w := p.world (p.call fresh limit) f room sp live
      callLabelled w (f.cell sp) limit (f.run.vars.env w (f.cell sp)) f.run.body
        (args.take f.run.params) ⟨f.fill sp (fresh outside.2) mem, outside, []⟩ = .ok (some value) store)
    (inside : ∀ event ∈ store.trace, event.inside (f.shared live sp) = true) :
    p.call fresh (limit + 1) room sp live name args mem outside =
      some (value, store.mem, store.outside) := by
  rw [call]
  simp only [known]
  rw [enter, fits, decide_eq_true arity]
  dsimp only at ran
  simp only [ran, List.all_eq_true.mpr inside, Bool.and_self, if_true]

/-- `__call_main` gives what `main` gives. -/
theorem Program.call_callMain (known : p.function callMainName = some f) (run : f.run = callMainRun)
    (main : p.call fresh limit (room + 1) (stackWord sp 4) live mainName [] mem (counting outside) =
      some result) :
    p.call fresh (limit + 1) (room + 5) sp live callMainName [] mem outside = some result := by
  obtain ⟨-, -, -, params, nodes, -⟩ := callMainRun_facts
  have none : f.nAlloc = 0 := by rw [LinkedFunction.nAlloc, run, nodes]; rfl
  have frame : f.frame = 2 := by
    rw [LinkedFunction.frame, none, LinkedFunction.maxT, run, nodes, params]
    rfl
  have fits : f.fits (room + 5) = true := by
    rw [LinkedFunction.fits, frame, run, nodes]
    simp [LinkedFunction.below, frame, callWords, nArgRegs]
  have shared : f.shared live sp = live := by
    funext addr
    rw [LinkedFunction.shared, none]
    exact Bool.or_false _
  have filled : f.fill sp (fresh outside.2) mem = mem := by rw [LinkedFunction.fill, none]; rfl
  have below : f.below 0 = 4 := by rw [LinkedFunction.below, frame]; rfl
  let w := p.world (p.call fresh limit) f (room + 5) sp live
  have called : callOut w mainName [] ⟨mem, outside, []⟩ =
      .ok result.1 ⟨result.2.1, result.2.2, [.call mainName []]⟩ := by
    have callee : w.callee mainName [] mem outside = some result := by
      change p.call fresh limit (room + 5 - f.below 0) (stackWord sp (f.below 0)) (f.shared live sp)
        mainName [] mem (counting outside) = some result
      rw [below, shared]
      exact main
    simp only [callOut, bind_run, modify_run, get_run, Store.log, callee]
    rfl
  have ran : callLabelled w (f.cell sp) limit (f.run.vars.env w (f.cell sp)) f.run.body
      (List.take f.run.params []) ⟨f.fill sp (fresh outside.2) mem, outside, []⟩ =
      .ok (some result.1) ⟨result.2.1, result.2.2, [.call mainName []]⟩ := by
    rw [List.take_nil, filled, run, callMainRun_body, callLabelled]
    simp only [enterParams, runStatements, runStatement, evalExpr, evalArgs, Exit.andThen, bind_run,
      pure_run]
    rw [called]
    cases limit <;> rfl
  exact p.call_eq known fits (by rw [run, params]; exact Nat.le_refl 0) ran (by simp [Event.inside])

end

/-- From `_start` on, the process gets to the system call of `exit`. -/
def Image.Exits (im : Image σ) (s : AsmState σ) (status : Word) (outside : σ) : Prop :=
  ∃ before after, Leads im.step (startName, startCode) s (startName, [.call exitName]) before ∧
    execInstrs (im.world exitName) exitCode (im.enter id startName [] before) = .ok after ∧
      after.regs .rax = sysExit ∧ after.regs .rdi = status ∧ after.outside = outside

/-- What a linker is given: files, the addresses of everything, and the routines that
were not compiled from B. -/
structure Linkage (σ : Type) where
  files : List LinkedFile
  global : CStr → Word
  place : CStr → List Instr → Word
  library : CallMeaning σ
  routine : CStr → AsmState σ → Option (AsmState σ)

namespace Linkage

variable (k : Linkage σ)

def functions : List LinkedFunction := k.files.flatMap (·.functions)

def names : List CStr := k.functions.map (·.run.name)

def program : Program σ where
  global := k.global
  function name := k.functions.find? (·.run.name == name)
  library := k.library

/-- The places behind all calls, of which `_start` has one that returns. -/
def returnPoints : List (CStr × List Instr) :=
  (startName, [.call exitName]) :: k.program.returnPoints k.names

def image : Image σ :=
  { k.program.image k.names k.place k.routine with
    fetch := fun addr => k.returnPoints.find? fun point => k.place point.1 point.2 == addr }

/-- No function is defined twice, no two calls return to the same address, and the
routines do what the program takes them for. -/
structure Sound : Prop where
  names : k.names.Nodup
  places : (k.returnPoints.map fun point => k.place point.1 point.2).Nodup
  library : ∀ name room live args mem outside result s, k.program.function name = none →
    k.library room (s.regs .rsp) live name args mem outside = some result →
    Entered room live args mem outside s →
    ∃ s', k.routine name s = some s' ∧ Left room live result s s'

variable {k}

theorem mem_functions {f : LinkedFunction} :
    f ∈ k.functions ↔ ∃ file ∈ k.files, f ∈ file.functions := List.mem_flatMap

theorem function_some {name : CStr} {f : LinkedFunction} (known : k.program.function name = some f) :
    f ∈ k.functions ∧ f.run.name = name := by
  have found : k.functions.find? (·.run.name == name) = some f := known
  have same := List.find?_some found
  exact ⟨List.mem_of_find?_eq_some found, eq_of_beq same⟩

theorem Sound.function (sound : k.Sound) {f : LinkedFunction} (member : f ∈ k.functions) :
    k.program.function f.run.name = some f := by
  obtain ⟨other, known⟩ : ∃ other, k.program.function f.run.name = some other := by
    rw [← Option.isSome_iff_exists]
    exact List.find?_isSome.mpr ⟨f, member, beq_self_eq_true _⟩
  obtain ⟨member', same⟩ := function_some known
  rw [known, List.inj_on_of_nodup_map sound.names member' member same]

theorem Sound.fetch (sound : k.Sound) {point : CStr × List Instr} (member : point ∈ k.returnPoints) :
    k.image.fetch (k.place point.1 point.2) = some point := by
  change k.returnPoints.find? (fun other => k.place other.1 other.2 == k.place point.1 point.2) = _
  obtain ⟨other, found⟩ : ∃ other, k.returnPoints.find?
      (fun other => k.place other.1 other.2 == k.place point.1 point.2) = some other := by
    rw [← Option.isSome_iff_exists]
    exact List.find?_isSome.mpr ⟨point, member, beq_self_eq_true _⟩
  have same := List.find?_some found
  rw [found, List.inj_on_of_nodup_map sound.places (List.mem_of_find?_eq_some found) member (eq_of_beq same)]

theorem codeOf_eq {name : CStr} {f : LinkedFunction} {code : List Instr}
    (known : k.program.function name = some f)
    (assembled : asmFunction f.run.params f.run.nodes = .ok code) : k.image.code name = some code := by
  change (k.program.function name).bind _ = _
  rw [known, Option.bind_some, assembled]
  rfl

/-- The image has the code that the compiler has written. -/
theorem Sound.loaded (sound : k.Sound) {file : LinkedFile} (linked : file ∈ k.files) {name : CStr}
    {code : List Instr} (listed : .function name code ∈ file.object.items) :
    k.image.code name = some code := by
  obtain ⟨f, mine, rfl⟩ := file.exists_function listed
  obtain ⟨code', assembled, listed'⟩ := (file.defines f mine).code
  have once : ((itemFunctions file.object.items).map Prod.fst).Nodup := by
    obtain ⟨before, after, split⟩ := List.append_of_mem linked
    have names := sound.names
    rw [Linkage.names, functions, split, List.flatMap_append, List.flatMap_cons, List.map_append,
      List.map_append] at names
    rw [← file.complete]
    exact (List.nodup_append.mp (List.nodup_append.mp names).2.1).1
  have same := List.inj_on_of_nodup_map once (mem_itemFunctions.mpr listed')
    (mem_itemFunctions.mpr listed) rfl
  cases same
  exact codeOf_eq (sound.function (mem_functions.mpr ⟨file, linked, mine⟩)) assembled

theorem Sound.links (sound : k.Sound) : k.program.LinksTo k.image where
  compiled name f known := by
    obtain ⟨member, rfl⟩ := function_some known
    obtain ⟨file, linked, mine⟩ := mem_functions.mp member
    obtain ⟨code, assembled, -⟩ := (file.defines f mine).code
    have found := codeOf_eq known assembled
    refine ⟨code, assembled, found, fun callee rest inside => ?_⟩
    exact sound.fetch (List.mem_cons_of_mem _
      (Program.mem_returnPoints (List.mem_map_of_mem member) found inside))
  var _ _ := rfl
  roData name f known id := by
    change ((k.program.function name).map (·.roData id)).getD 0 = _
    rw [known]
    rfl
  foreign name none := by
    change (k.program.function name).bind _ = _
    rw [none]
    rfl
  library := sound.library

/-- A function of a text that is linked is the one that is known by its name. -/
theorem Sound.function_of_text (sound : k.Sound) {file : LinkedFile} (linked : file ∈ k.files)
    {run : FunctionRun} {source : List Char} (text : file.object.call.source = source.map byte)
    (accepted : (lexMeanings (source.map byte)).isSome) (tokens : run.tokens = sourceTokens source)
    (module : run.module = file.object.call.file) (once : (functionNames run.parser.ast).Nodup) :
    ∃ f, k.program.function run.name = some f ∧ f.run = run := by
  have defines : file.object.Defines run := .of_text source text accepted tokens module
  obtain ⟨code, -, listed⟩ := defines.code
  obtain ⟨f, mine, same⟩ := file.exists_function listed
  have known := sound.function (mem_functions.mpr ⟨file, linked, mine⟩)
  rw [same] at known
  obtain ⟨l, lexed, tokens, module⟩ := defines
  obtain ⟨l', lexed', tokens', module'⟩ := file.defines f mine
  cases lexed.symm.trans lexed'
  exact ⟨f, known, FunctionRun.eq_of_name (tokens'.trans tokens.symm) (module'.trans module.symm) same once⟩

/-- `__call_main` is the function of `brt.b`. -/
theorem Sound.callMain_known (sound : k.Sound) {file : LinkedFile} (linked : file ∈ k.files)
    (source : file.object.call.source = brt.map byte) (named : file.object.call.file = "brt.b") :
    ∃ f, k.program.function callMainName = some f ∧ f.run = callMainRun := by
  obtain ⟨tokens, module, name, -, -, names⟩ := callMainRun_facts
  have once : (functionNames callMainRun.parser.ast).Nodup := by
    rw [names]
    exact List.nodup_singleton _
  rw [← name]
  exact sound.function_of_text linked source (by decide +kernel) tokens (module.trans named.symm) once

/-- An executable with the runtime: if the call of `main` has a meaning, the process
exits with its value. -/
theorem exits (sound : k.Sound) {file : LinkedFile} (linked : file ∈ k.files)
    (source : file.object.call.source = brt.map byte) (named : file.object.call.file = "brt.b")
    {room : Nat} {live : Word → Bool} {mem : Mem} {outside : σ} {s : AsmState σ}
    (globals : ∀ global, live (k.global global) = true)
    (entered : Entered (room + 5) live [] mem outside (k.image.enter id startName [.call exitName] s))
    (post : Word → Mem → σ → Prop)
    (means : ∀ fresh, ∃ limit value final outside' calls,
      k.program.call fresh limit (room + 1) (stackWord (s.regs .rsp) 5) live mainName [] mem (outside, 2) =
        some (value, final, outside', calls) ∧ post value final outside') :
    ∃ value final outside', post value final outside' ∧ k.image.Exits s value outside' := by
  obtain ⟨f, known, run⟩ := sound.callMain_known linked source named
  obtain ⟨fresh, _, later⟩ := k.program.exists_fresh k.image startName startCode s
  obtain ⟨limit, value, final, outside', calls, main, holds'⟩ := means fresh
  let r := k.image.counting startName startCode s
  let s₀ := k.image.counted.enter counting startName [.call exitName] (s.counted 0)
  have top : stackWord (s₀.regs .rsp) 4 = stackWord (s.regs .rsp) 5 := by
    change stackWord (stackWord (s.regs .rsp) 1) 4 = _
    exact stackWord_stackWord _ 1 4
  have did : k.program.call fresh (limit + 1) (room + 5) (s₀.regs .rsp) live callMainName [] mem (outside, 1) =
      some (value, final, outside', calls) :=
    k.program.call_callMain known run (top ▸ main)
  have counted : Entered (room + 5) live [] mem (outside, 1) s₀ :=
    { args := entered.args
      shared := entered.shared
      outside := Prod.ext entered.outside rfl
      near := entered.near
      apart := entered.apart }
  have first : r.Seen (startName, startCode) (s.counted 0) := Leads.refl _ _
  have gives : r.Gives (room + 5) live callMainName (value, final, outside', calls) s₀ :=
    k.program.call_gives sound.links later (limit + 1) globals did counted
      (later startName callMainName [.call exitName] (s.counted 0) first)
      fun code found => first.goes (.one (Image.step_enters found))
  obtain ⟨returned, goes, left⟩ := gives.calls (sound.fetch List.mem_cons_self)
  obtain ⟨leads, -⟩ := goes_plain goes
  refine ⟨value, final, outside', holds', returned.plain, _, leads, rfl, rfl, ?_, ?_⟩
  · exact left.rax
  · exact congrArg Prod.fst left.outside

end Linkage

/-- The file that the compiler writes in this call. -/
def Object.of? (call : Invocation) : Option Object :=
  match written : main call with
  | ⟨.status 0, .asm items, stderr⟩ => some ⟨call, items, stderr, written⟩
  | _ => none

def nasmCall (file : String) (source : List Char) : Invocation where
  file := file
  source := source.map byte
  target := some targetNasm
  path := "out.s"
  writable := true
  output := truncated

theorem Object.of?_call {call : Invocation} {object : Object} (made : Object.of? call = some object) :
    object.call = call := by
  unfold Object.of? at made
  split at made
  · cases made
    rfl
  · cases made

/-- The file of a text with these functions, whose literals do not matter. -/
def LinkedFile.ofText (file : String) (source : List Char) (runs : List FunctionRun)
    (written : (Object.of? (nasmCall file source)).isSome)
    (accepted : (lexMeanings (source.map byte)).isSome)
    (same : ∀ run ∈ runs, run.tokens = sourceTokens source ∧ run.module = file)
    (complete : runs.map (·.name) =
      (itemFunctions ((Object.of? (nasmCall file source)).get written).items).map Prod.fst) : LinkedFile where
  object := (Object.of? (nasmCall file source)).get written
  functions := runs.map fun run => ⟨run, fun _ => 0⟩
  defines f member := by
    obtain ⟨run, listed, rfl⟩ := List.mem_map.mp member
    obtain ⟨tokens, module⟩ := same run listed
    have call := Object.of?_call (Option.some_get written).symm
    refine .of_text source ?_ accepted tokens ?_
    · rw [call]
      rfl
    · rw [call]
      exact module
  complete := by
    rw [List.map_map]
    exact complete

def mainText : List Char := "main() \x7b next(); return next() + 1; \x7d".toList

def nextText : List Char := "next() \x7b extrn v; v = v + 1; return v; \x7d v;".toList

def brtFile : LinkedFile :=
  .ofText "brt.b" brt [callMainRun] (by decide +kernel) (by decide +kernel) (by decide +kernel)
    (by decide +kernel)

def mainFile : LinkedFile :=
  .ofText "main.b" mainText [mainFunction.run] (by decide +kernel) (by decide +kernel)
    (by decide +kernel) (by decide +kernel)

def nextFile : LinkedFile :=
  .ofText "next.b" nextText [nextFunction.run] (by decide +kernel) (by decide +kernel)
    (by decide +kernel) (by decide +kernel)

/-- An executable of three files. -/
def startLinkage : Linkage Unit where
  files := [brtFile, mainFile, nextFile]
  global _ := 4096
  place name rest := BitVec.ofNat 64
    ((if name = startName then 65536 else if name = callMainName then 131072
      else if name = mainName then 262144 else 524288) - rest.length)
  library _ _ _ _ _ _ _ := none
  routine _ _ := none

private theorem startLinkage_sound : startLinkage.Sound where
  names := by decide +kernel
  places := by decide +kernel
  library _ _ _ _ _ _ _ _ _ impossible := by cases impossible

/-- The processor at `_start`. -/
def startEntry : AsmState Unit where
  regs reg := if reg = .rsp then 32768 else 0
  flags := none
  mem _ := 0
  outside := ()

private theorem startLinkage_noVars (name : CStr) (f : LinkedFunction)
    (known : startLinkage.program.function name = some f) : f.nAlloc = 0 := by
  have none : ∀ f ∈ startLinkage.functions, f.nAlloc = 0 := by decide +kernel
  exact none f (Linkage.function_some known).1

theorem Linkage.exits_next : ∃ (final : Mem) (outside : Unit), final.load 4096 = 2 ∧
    startLinkage.image.Exits startEntry 3 outside := by
  let live (addr : Word) : Bool := addr == 4096
  let mem := (startLinkage.image.enter id startName [.call exitName] startEntry).mem
  have entered : Entered (59 + 5) live [] mem ()
      (startLinkage.image.enter id startName [.call exitName] startEntry) :=
    { args := by simp
      shared := .refl _ _
      outside := rfl
      near := by decide
      apart := by
        intro addr member k small
        obtain rfl := beq_iff_eq.mp member
        revert k
        decide +kernel }
  have value : ((startLinkage.program.call (fun _ _ => 0) 3 (59 + 1) (stackWord (startEntry.regs .rsp) 5) live
      mainName [] mem ((), 2)).map fun result => (result.1, result.2.1.load 4096)) = some (3, 2) := by
    decide +kernel
  obtain ⟨⟨value, final, outside', calls⟩, did, same⟩ := Option.map_eq_some_iff.mp value
  obtain ⟨result, counted⟩ := Prod.mk.inj same
  have means (fresh : Nat → Nat → Word) : ∃ limit value final outside' calls,
      startLinkage.program.call fresh limit (59 + 1) (stackWord (startEntry.regs .rsp) 5) live mainName []
        mem ((), 2) = some (value, final, outside', calls) ∧ value = 3 ∧ final.load 4096 = 2 := by
    refine ⟨3, value, final, outside', calls, ?_, result, counted⟩
    rw [Program.call_fresh startLinkage_noVars fresh fun _ _ => 0]
    exact did
  have globals (global : CStr) : live (startLinkage.global global) = true :=
    beq_self_eq_true (4096 : Word)
  obtain ⟨value', final', outside'', ⟨same, stored⟩, exits⟩ := Linkage.exits startLinkage_sound
    (show brtFile ∈ startLinkage.files from List.mem_cons_self) (by decide +kernel) (by decide +kernel)
    globals entered (fun value mem _ => value = 3 ∧ mem.load 4096 = 2)
    means
  exact ⟨final', outside'', stored, same ▸ exits⟩

end Trident
