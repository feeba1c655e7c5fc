import Trident.Amd64.Compiled
import Trident.Amd64.Definitions
import Trident.Ir.Uses

/-! Names across modules: the symbols that a module exports, and those that the uses
of external names in another module refer to. -/

set_option autoImplicit false

namespace Trident

open Foundation

/-- The symbol that an instruction refers to. -/
def Operand.symbol? : Operand → Option Name
  | .rel (.var name) => some (varLabel name)
  | .rel (.roData id) => some (roDataLabel id)
  | _ => none

def Instr.symbol? : Instr → Option Name
  | .mov dst src => dst.symbol?.or src.symbol?
  | .lea _ src => src.symbol?
  | .call name => some (showName name)
  | _ => none

def codeSymbols (code : List Instr) : List Name := code.filterMap Instr.symbol?

@[simp] theorem codeSymbols_append (first second : List Instr) :
    codeSymbols (first ++ second) = codeSymbols first ++ codeSymbols second :=
  List.filterMap_append

/-- The symbols that a module is told to import. -/
def AsmItem.imports : AsmItem → List Name
  | .externLine name => [showName name]
  | _ => []

/-- The load, the store and the address of an lvalue refer to one symbol. -/
def LValue.Refers (lv : LValue) (symbol : Name) : Prop :=
  ∀ t allocI maxT, ∀ node ∈ [lv.loadNode t, lv.storeNode t, lv.addrNode t],
    ∃ lines next, asmNode node allocI maxT = .ok (lines, next) ∧ codeSymbols lines = [symbol]

theorem LValue.refers_iff {lv : LValue} {symbol : Name} :
    lv.Refers symbol ↔ ∃ name, lv = .global name ∧ varLabel name = symbol := by
  constructor
  · intro refers
    obtain ⟨lines, next, translated, symbols⟩ := refers 0 0 0 _ List.mem_cons_self
    cases lv with
    | global name =>
        cases translated
        exact ⟨name, rfl, List.head_eq_of_cons_eq symbols⟩
    | local_ addrTemp =>
        cases translated
        cases symbols
  · rintro ⟨name, rfl, rfl⟩ t allocI maxT node member
    simp only [List.mem_cons, List.not_mem_nil, or_false] at member
    rcases member with rfl | rfl | rfl <;> exact ⟨_, _, rfl, rfl⟩

theorem SameName.showName_eq {left right : CStr} (same : SameName left right) :
    showName left = showName right := by
  obtain ⟨left_some, equal⟩ := same
  have right_some : right.isSome := by
    rw [← Option.isSome_map (f := cstr), ← equal, Option.isSome_map]
    exact left_some
  exact (sameName_iff left_some right_some).mp ⟨left_some, equal⟩

private theorem varLabel_eq_iff {name other : Name} :
    varLabel (some name) = varLabel (some other) ↔ SameName (some name) (some other) := by
  rw [sameName_iff rfl rfl]
  exact ⟨List.append_cancel_left, congrArg _⟩

/-- An import does not have the name of a variable's symbol. -/
private theorem showName_ne_varLabel (name : CStr) : showName name ≠ varLabel name := by
  intro same
  have lengths := congrArg List.length same
  rw [varLabel, List.length_append] at lengths
  exact absurd lengths (by simp)

/-- A call refers to the function that it names, and to nothing else. -/
private theorem asmCall_symbols (tempDest : Nat) (name : CStr) (args : List Nat) :
    codeSymbols (asmCall tempDest name args) = [showName name] := by
  have pushed : codeSymbols (asmPushArgs args) = [] := by
    rw [codeSymbols, List.filterMap_eq_nil_iff]
    intro instr member
    obtain ⟨t, _, member⟩ := List.mem_flatMap.mp member
    rcases List.mem_cons.mp member with rfl | member
    · rfl
    · cases List.mem_singleton.mp member
      rfl
  have loaded : codeSymbols (asmLoadArgs args) = [] := by
    rw [codeSymbols, List.filterMap_eq_nil_iff]
    intro instr member
    obtain ⟨arg, _, rfl⟩ := List.mem_map.mp member
    rfl
  have adjusted : ∀ (needed : Prop) [Decidable needed] (op : AluOp) (size : Nat),
      codeSymbols (if needed then [.alu op .rsp (.imm size)] else []) = [] := by
    intro needed _ op size
    split <;> rfl
  simp only [asmCall, codeSymbols_append, pushed, loaded, adjusted]
  rfl

/-- The use reaches no `ir_fatal`, whether it is read, assigned to, counted up or
down or has its address taken, and the instructions made for it refer to the symbol. -/
def NameUse.Linked (use : NameUse) (symbol : Name) : Prop :=
  ∃ lv : LValue, lv.Refers symbol ∧ ∀ ir : Ir, ir.heap = use.visit.ir.heap →
    irIdentLvalue use.visit.scope (some use.used) ir = .ok lv ir ∧
    irIdentifier use.visit.scope (some use.used) ir =
      .ok (ir.tempC + 1) (ir.append [lv.loadNode (ir.tempC + 1)] (ir.tempC + 1))

theorem NameUse.linked_iff (use : NameUse) {v : Name} (same : SameName (some use.used) (some v)) :
    use.Linked (varLabel (some v)) ↔
      Names (globalNames use.parser.ast) (some use.used) ∧ ¬ use.Hidden := by
  rw [← use.lvalue?_global_iff]
  constructor
  · rintro ⟨lv, refers, accepted⟩
    obtain ⟨name, rfl, _⟩ := LValue.refers_iff.mp refers
    obtain ⟨found, _⟩ := irIdentLvalue_ok (accepted use.visit.ir rfl).1
    rw [found, lvalue?_global_name found]
  · intro found
    refine ⟨_, LValue.refers_iff.mpr ⟨_, rfl, varLabel_eq_iff.mpr same⟩, fun ir heap => ?_⟩
    rw [← heap] at found
    exact ⟨irIdentLvalue_run (use.alive heap) found, irIdentifier_run (use.alive heap) found⟩

/-- A variable that is defined in one module and used in another. The defining module
exports its symbol. A use refers to that symbol where the other module itself declares
a global of the name, which no parameter and no variable around the use hides, and
reaches `ir_fatal` or another variable elsewhere; so a module that knows the variable
by `extrn` alone is never accepted, and the symbol that it imports is another one. The
calls of a function refer to the symbol that its module exports. -/
theorem external_variables {exporting : AsmRun} {v : Name}
    (defined : some v ∈ globalNames exporting.p.ast) :
    varLabel (some v) ∈ itemLabels exporting.items ∧
    (∀ use : NameUse, SameName (some use.used) (some v) →
      (use.Linked (varLabel (some v)) ↔
        Names (globalNames use.parser.ast) (some use.used) ∧ ¬ use.Hidden)) ∧
    (∀ (tokens : List Token) (module : String) (parser : Parser) (before after : List AstNode)
        (name : CStr) (paramsTab lableTab params : Nat) (body node : AstNode) (used : Name),
      Trident.parser (initParser tokens) = .ok () parser →
      parser.ast = before ++ .function name paramsTab lableTab params body :: after →
      node ∈ body.expressions → some used ∈ node.identifiers → SameName (some used) (some v) →
      ¬ Names (globalNames parser.ast) (some used) → ¬ parser.heap.HasParam paramsTab used →
      ¬ Names body.autos (some used) →
      ∀ final, genIr module parser.ast (initIr parser) ≠ .ok () final) ∧
    (∀ name, SameName name (some v) → varLabel (some v) ∉ (AsmItem.externLine name).imports) ∧
    ∀ name ∈ functionNames exporting.p.ast, showName name ∈ itemLabels exporting.items ∧
      ∀ called, SameName called name →
        showName name ∈ (AsmItem.externLine called).imports ∧
        ∀ t args, codeSymbols (asmCall t called args) = [showName name] := by
  have labels := exporting.labels_eq
  refine ⟨?_, fun use same => use.linked_iff same, ?_, ?_, ?_⟩
  · rw [labels]
    exact List.mem_append_left _ (List.mem_map_of_mem defined)
  · intro tokens module parser before after name paramsTab lableTab params body node used parsed ast
      written member _ notGlobal notParam notAuto final generated
    rcases used_declared parsed generated ast written member with declared | declared | declared
    · exact notAuto declared
    · exact notParam declared
    · exact notGlobal declared
  · intro name same member
    rw [AsmItem.imports, List.mem_singleton, same.showName_eq] at member
    exact showName_ne_varLabel _ member.symm
  · intro name member
    constructor
    · rw [labels]
      exact List.mem_append_right _ (List.mem_append_left _ (List.mem_map_of_mem member))
    · intro called same
      rw [← same.showName_eq]
      exact ⟨List.mem_singleton.mpr rfl, fun t args => asmCall_symbols t called args⟩

/-- A use of the variable `v` in a module that declares it, and has no variable or
parameter of that name. -/
def usesGlobalV (run : FunctionRun) : Bool :=
  (expressionsOf run.body).any (·.identifiers.contains (some [byte 'v'])) &&
    (autosOf run.body).isEmpty && run.params == 0 &&
    decide (Names (globalNames run.parser.ast) (some [byte 'v']))

theorem external_variables_declared : ∃ exporting : AsmRun,
    exporting.call = compileText "v;".toList ∧
    varLabel (some [byte 'v']) ∈ itemLabels exporting.items ∧
    ∃ use : NameUse, use.used = [byte 'v'] ∧ use.Linked (varLabel (some [byte 'v'])) := by
  obtain ⟨items, compiled, -⟩ := compilesTo_items (by decide +kernel :
    compilesTo "v;".toList (fun _ => true) = true)
  obtain ⟨exporting, call, -, -⟩ := main_asm compiled
  have defined : some [byte 'v'] ∈ globalNames exporting.p.ast := by
    rw [(AsmRun.source call).2]
    decide +kernel
  obtain ⟨exported, uses, -⟩ := external_variables defined
  refine ⟨exporting, call, exported, ?_⟩
  have found : (FunctionRun.first? (sourceTokens "f()\x7bextrn v; g(v);\x7d v;".toList)
      "f.b").any usesGlobalV = true := by decide +kernel
  obtain ⟨run, -, test⟩ := (Option.any_eq_true _ _).mp found
  simp only [usesGlobalV, Bool.and_eq_true, List.any_eq_true, List.isEmpty_iff, beq_iff_eq,
    decide_eq_true_iff] at test
  obtain ⟨⟨⟨⟨node, written, member⟩, autos⟩, params⟩, declared⟩ := test
  obtain ⟨use, parser, -, count, used, frames, -⟩ :=
    run.exists_use written (List.contains_iff_mem.mp member)
  refine ⟨use, used, (uses use (by rw [used]; decide)).mpr ⟨?_, ?_⟩⟩
  · rw [parser, used]
    exact declared
  · rintro (⟨frame, inside, stored, auto, _⟩ | param)
    · have none_there := frames frame inside auto
      rw [autos] at none_there
      cases none_there
    · have positive := use.params_pos param
      rw [count, params] at positive
      exact absurd positive (Nat.lt_irrefl 0)

/-- A module that only declares the variable by `extrn` is rejected. -/
theorem external_variables_rejected :
    (∃ exporting : AsmRun, exporting.call = compileText "v;".toList ∧
      varLabel (some [byte 'v']) ∈ itemLabels exporting.items) ∧
    main (compileText "f()\x7bextrn v; g(v);\x7d".toList) =
      ⟨.status 1, truncated, [.undefinedVariable (some [byte 'v'])]⟩ := by
  constructor
  · obtain ⟨items, compiled, exported⟩ := compilesTo_items (by decide +kernel :
      compilesTo "v;".toList (fun items =>
        (itemLabels items).contains (varLabel (some [byte 'v']))) = true)
    obtain ⟨exporting, call, rfl, -⟩ := main_asm compiled
    exact ⟨exporting, call, List.contains_iff_mem.mp exported⟩
  · decide +kernel

end Trident
