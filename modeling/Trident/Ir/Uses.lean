import Trident.Ir.Module
import Trident.Ir.Scoping

/-! The uses of names in the expressions of a function: where the generator comes
to them, and when they are uses of a global. -/

set_option autoImplicit false

namespace Trident

open Foundation

mutual

/-- The expressions of a statement, in inner scopes too. -/
def AstNode.expressions : AstNode → List AstNode
  | .return_ (some node) => [node]
  | .expr node => [node]
  | .scope _ body => expressionsOf body
  | .else_ _ body => expressionsOf body
  | .if_ condition body chain =>
      condition :: (body.expressions ++ expressionsOfChain chain)
  | .elseIf condition body chain =>
      condition :: (body.expressions ++ expressionsOfChain chain)
  | .while_ condition body => condition :: body.expressions
  | _ => []
  termination_by structural node => node

def expressionsOf : List AstNode → List AstNode
  | [] => []
  | node :: nodes => node.expressions ++ expressionsOf nodes
  termination_by structural nodes => nodes

def expressionsOfChain : Option AstNode → List AstNode
  | none => []
  | some node => node.expressions
  termination_by structural chain => chain

end

mutual

/-- The variables that a statement declares, in inner scopes too. -/
def AstNode.autos : AstNode → List CStr
  | .auto name _ => [name]
  | .scope _ body => autosOf body
  | .else_ _ body => autosOf body
  | .if_ _ body chain => body.autos ++ autosOfChain chain
  | .elseIf _ body chain => body.autos ++ autosOfChain chain
  | .while_ _ body => body.autos
  | _ => []
  termination_by structural node => node

def autosOf : List AstNode → List CStr
  | [] => []
  | node :: nodes => node.autos ++ autosOf nodes
  termination_by structural nodes => nodes

def autosOfChain : Option AstNode → List CStr
  | none => []
  | some node => node.autos
  termination_by structural chain => chain

end

def ScopePhrase.expressions : ScopePhrase → List AstNode
  | .stmt node => node.expressions
  | .stmts nodes => expressionsOf nodes
  | .block _ body => expressionsOf body
  | .chain rest => expressionsOfChain rest

def VisitPart.autos : VisitPart → List CStr
  | .phrase (.stmt node) => node.autos
  | .phrase (.stmts nodes) => autosOf nodes
  | .phrase (.block _ body) => autosOf body
  | .phrase (.chain rest) => autosOfChain rest
  | .expr _ => []

private theorem autoNames_subset (nodes : List AstNode) : autoNames nodes ⊆ autosOf nodes := by
  induction nodes with
  | nil => exact List.Subset.refl _
  | cons node rest ih =>
      intro name member
      cases node with
      | auto stored size =>
          rcases List.mem_cons.mp member with rfl | member
          · exact List.mem_cons_self
          · exact List.mem_cons_of_mem _ (ih member)
      | _ => exact List.mem_append_right _ (ih (by exact member))

namespace Visit

/-- The variables of the open blocks, and those declared in the part. -/
structure Declares (names : List CStr) (v : Visit) : Prop where
  frames : ∀ frame ∈ v.frames, autoNames frame.body ⊆ names
  part : v.part.autos ⊆ names

variable {v w : Visit} {names : List CStr} {node : AstNode} {final : Ir}

theorem Next.declares (next : Next v w) (declares : v.Declares names) : w.Declares names := by
  obtain ⟨frames, part⟩ := declares
  cases next with
  | return_ | expr | whileCondition | condition => exact ⟨frames, List.nil_subset _⟩
  | scope | whileBody | else_ | if_ => exact ⟨frames, part⟩
  | first | body => exact ⟨frames, List.Subset.trans (List.subset_append_left _ _) part⟩
  | chain => exact ⟨frames, List.Subset.trans (List.subset_append_right _ _) part⟩
  | rest =>
      refine ⟨?_, List.Subset.trans (List.subset_append_right _ _) part⟩
      simp only [List.forall_mem_cons] at frames ⊢
      exact frames
  | block =>
      refine ⟨?_, part⟩
      simp only [List.forall_mem_cons]
      exact ⟨List.Subset.trans (autoNames_subset _) part, frames⟩

theorem Reaches.declares (reaches : Reaches v w) (declares : v.Declares names) :
    w.Declares names := by
  induction reaches with
  | refl => exact declares
  | tail _ next ih => exact next.declares ih

/-- A call on an expression is made in `v`. -/
def Evaluates (v : Visit) (node : AstNode) : Prop := ∃ w, v.Reaches w ∧ w.part = .expr node

theorem Next.evaluates (next : Next v w) (evaluates : w.Evaluates node) : v.Evaluates node := by
  obtain ⟨u, reaches, part⟩ := evaluates
  exact ⟨u, .head next reaches, part⟩

/-- A phrase whose accepted calls come to each of its expressions. -/
def Covers (phrase : ScopePhrase) : Prop :=
  ∀ (v : Visit) (final : Ir), v.part = .phrase phrase →
    (∀ nodes, phrase = .stmts nodes → v.frames ≠ []) → v.Ends final →
    ∀ node ∈ phrase.expressions, v.Evaluates node

theorem Next.covers {phrase : ScopePhrase} (next : Next v w) (ended : v.Ends final)
    (part : w.part = .phrase phrase) (covers : Covers phrase)
    (inside : ∀ nodes, phrase = .stmts nodes → w.frames ≠ []) (member : node ∈ phrase.expressions) :
    v.Evaluates node := by
  obtain ⟨middle, ended, _⟩ := next.ends ended
  exact next.evaluates (covers w middle part inside ended node member)

theorem Covers.elseIf {condition : AstNode} {scopeN : AstScope} {body : List AstNode}
    {chain : Option AstNode} (block : Covers (.block scopeN body)) (rest : Covers (.chain chain)) :
    Covers (.chain (some (.elseIf condition (.scope scopeN body) chain))) := by
  rintro ⟨frames, scope, endLable, _, ir⟩ final rfl _ ended node member
  obtain ⟨t, ir', ir'', lowered, bodyRun, _⟩ := irIfWith_ok ended
  rcases List.mem_cons.mp member with rfl | inside
  · exact ⟨_, .single .condition, rfl⟩
  · rcases List.mem_append.mp inside with inside | inside
    · exact (Next.body lowered).covers ended rfl block nofun inside
    · exact (Next.chain lowered bodyRun).covers ended rfl rest nofun inside

/-- An accepted call comes to each of the expressions in its phrase. -/
theorem covers {heap : HsHeap} {phrase : ScopePhrase} {scope : List Nat} {lo hi : Nat}
    (built : Built heap phrase scope lo hi) : Covers phrase := by
  induction built with
  | goto | lable | extrn | auto | nil | noChain => exact fun _ _ _ _ _ _ member => nomatch member
  | return_ =>
      rintro ⟨frames, scope, endLable, _, ir⟩ final rfl _ ended node member
      cases List.mem_singleton.mp member
      exact ⟨_, .single .return_, rfl⟩
  | expr =>
      rintro ⟨frames, scope, endLable, _, ir⟩ final rfl _ ended node member
      cases List.mem_singleton.mp member
      exact ⟨_, .single .expr, rfl⟩
  | scope _ ih =>
      rintro ⟨frames, scope, endLable, _, ir⟩ final rfl _ ended node member
      exact Next.scope.covers ended rfl ih nofun member
  | else_ _ ih =>
      rintro ⟨frames, scope, endLable, _, ir⟩ final rfl _ ended node member
      exact Next.else_.covers ended rfl ih nofun member
  | if_ _ _ block chain =>
      rintro ⟨frames, scope, endLable, _, ir⟩ final rfl _ ended node member
      exact (Next.if_ rfl).covers ended rfl (.elseIf block chain) nofun member
  | elseIf _ _ block chain => exact .elseIf block chain
  | while_ _ block =>
      rintro ⟨frames, scope, endLable, _, ir⟩ final rfl _ ended node member
      obtain ⟨_, _, parent, looped⟩ := bind_eq_ok.mp ended
      cases parent
      obtain ⟨t, ir', ir'', lowered, bodyRun, rfl⟩ := irWhileWith_ok looped
      rcases List.mem_cons.mp member with rfl | inside
      · exact ⟨_, .single (.whileCondition rfl), rfl⟩
      · exact (Next.whileBody lowered).covers ended rfl block nofun inside
  | cons _ _ first rest =>
      rintro ⟨frames, scope, endLable, _, ir⟩ final rfl inside ended node member
      obtain ⟨frame, frames, rfl⟩ := List.exists_cons_of_ne_nil (inside _ rfl)
      obtain ⟨_, middle, visited, _⟩ := bind_eq_ok.mp ended
      rcases List.mem_append.mp member with member | member
      · exact Next.first.covers ended rfl first nofun member
      · exact (Next.rest visited).covers ended rfl rest (fun _ _ => List.cons_ne_nil _ _) member
  | block _ _ ih =>
      rintro ⟨frames, scope, endLable, _, ir⟩ final rfl _ ended node member
      exact Next.block.covers ended rfl ih (fun _ _ => List.cons_ne_nil _ _) member

end Visit

section Lookup

variable {start heap : HsHeap} {paramsTab globalTable : Nat} {frames : List Frame}
  {scope : List Nat} {params : Hs} {names : List CStr} {name : Name}

/-- A name is that of a global where no block around it and no parameter has it. -/
theorem Opened.lookup_global_iff (opened : Opened start heap [paramsTab, globalTable] frames scope)
    (paramsAlive : start.sets paramsTab = some params)
    (kinds : ∀ name info, params.get name = some info → info.kind = .autoVar)
    (globals : start.Declares globalTable globalInfo names) :
    (∃ id info, heap.lookup scope (some name) = some (id, info) ∧ info.kind = .globalVar) ↔
      (∀ frame ∈ frames, ¬ Names (autoNames frame.body) (some name)) ∧
        params.get name = none ∧ Names names (some name) := by
  induction opened with
  | base kept =>
      obtain ⟨table, present, entries⟩ := globals
      have paramsKept := (kept paramsTab (by simp)).trans paramsAlive
      have globalsKept := (kept globalTable (by simp)).trans present
      simp only [List.not_mem_nil, false_imp_iff, implies_true, true_and]
      cases entry : params.get name with
      | some info =>
          rw [lookup_own paramsKept entry]
          constructor
          · rintro ⟨_, _, found, kind⟩
            cases found
            cases (kinds name info entry).symm.trans kind
          · exact fun ended => absurd ended.1 (Option.some_ne_none info)
      | none =>
          have outer : heap.lookup [paramsTab, globalTable] (some name) =
              heap.lookup [globalTable] (some name) := by
            simp [HsHeap.lookup, paramsKept, entry]
          rw [outer]
          by_cases declared : Names names (some name)
          · have entry' : table.get name = some globalInfo := by rw [entries, if_pos declared]
            simp only [lookup_own globalsKept entry', declared, true_and, iff_true]
            exact ⟨globalTable, globalInfo, rfl, rfl⟩
          · have entry' : table.get name = none := by rw [entries, if_neg declared]
            simp [HsHeap.lookup, globalsKept, entry', declared]
  | @block id frame frames scope opens outer ih =>
      obtain ⟨table, present, entries⟩ := opens
      obtain ⟨kind, _⟩ := entries name
      rw [List.forall_mem_cons]
      by_cases declared : Names (autoNames frame.body) (some name)
      · rw [if_pos declared] at kind
        obtain ⟨info, entry, infoKind⟩ := Option.map_eq_some_iff.mp kind
        rw [lookup_own present entry]
        constructor
        · rintro ⟨_, _, found, globalKind⟩
          cases found
          cases infoKind.symm.trans globalKind
        · exact fun undeclared => absurd declared undeclared.1.1
      · rw [if_neg declared] at kind
        have outside : heap.lookup (id :: scope) (some name) = heap.lookup scope (some name) := by
          simp [HsHeap.lookup, present, Option.map_eq_none_iff.mp kind]
        rw [outside, ih, and_iff_right declared]

private theorem lvalue?_global_iff {name : CStr} :
    heap.lvalue? scope name = some (.global name) ↔
      ∃ id info, heap.lookup scope name = some (id, info) ∧ info.kind = .globalVar := by
  unfold HsHeap.lvalue?
  cases found : heap.lookup scope name with
  | none => simp
  | some entry =>
      obtain ⟨id, kind, temp⟩ := entry
      cases kind <;> simp [VarInfo.lvalue?]

theorem lvalue?_global_name {name other : CStr}
    (found : heap.lvalue? scope name = some (.global other)) : other = name := by
  obtain ⟨⟨id, kind, temp⟩, _, lvalue⟩ := Option.bind_eq_some_iff.mp found
  cases kind <;> simp [VarInfo.lvalue?] at lvalue
  exact lvalue.symm

theorem Opened.base_kept {base : List Nat} (opened : Opened start heap base frames scope) :
    ∀ id ∈ base, heap.sets id = start.sets id := by
  induction opened with
  | base kept => exact kept
  | block _ _ ih => exact ih

/-- Where a declaration that is found stands. -/
theorem Finds.declared {id : Nat} {info : VarInfo}
    (finds : Finds heap paramsTab globalTable name frames scope id info) :
    (∃ frame ∈ frames, Names (autoNames frame.body) (some name)) ∨
      (∃ params info, heap.sets paramsTab = some params ∧ params.get name = some info) ∨
      ∃ globals info, heap.sets globalTable = some globals ∧ globals.get name = some info := by
  induction finds with
  | block _ _ declared => exact .inl ⟨_, List.mem_cons_self, declared⟩
  | outer _ _ ih => exact ih.imp_left fun ⟨frame, member, declared⟩ =>
      ⟨frame, List.mem_cons_of_mem _ member, declared⟩
  | param present entry => exact .inr (.inl ⟨_, _, present, entry⟩)
  | global _ _ present entry => exact .inr (.inr ⟨_, _, present, entry⟩)

end Lookup

/-- A use of a name in an expression that the generator comes to. -/
structure NameUse where
  tokens : List Token
  module : String
  parser : Parser
  before : List AstNode
  after : List AstNode
  name : CStr
  paramsTab : Nat
  lableTab : Nat
  params : Nat
  scopeN : AstScope
  body : List AstNode
  ir : Ir
  visit : Visit
  node : AstNode
  used : Name
  parsed : Trident.parser (initParser tokens) = .ok () parser
  ast : parser.ast =
    before ++ .function name paramsTab lableTab params (.scope scopeN body) :: after
  comes : ComesTo parser module before ir
  reached : (Visit.ofBody ir paramsTab parser.globalTable lableTab params scopeN body).Reaches visit
  part : visit.part = .expr node
  member : some used ∈ node.identifiers

/-- The table of parameters has an entry for the name. -/
def HsHeap.HasParam (heap : HsHeap) (paramsTab : Nat) (name : Name) : Prop :=
  ∃ params info, heap.sets paramsTab = some params ∧ params.get name = some info

namespace NameUse

variable (use : NameUse)

/-- The use is of a parameter, or of a variable of a block around it. -/
def Hidden : Prop :=
  (∃ frame ∈ use.visit.frames, Names (autoNames frame.body) (some use.used)) ∨
    use.parser.heap.HasParam use.paramsTab use.used

/-- Where the use is visited. -/
theorem tables : ∃ params,
    use.parser.heap.sets use.paramsTab = some params ∧
    (∀ name info, params.get name = some info → info.kind = .autoVar) ∧
    use.ir.heap.sets use.paramsTab = some params ∧
    use.ir.heap.Declares use.parser.globalTable globalInfo (globalNames use.parser.ast) ∧
    Opened use.ir.heap use.visit.ir.heap [use.paramsTab, use.parser.globalTable]
      use.visit.frames use.visit.scope := by
  obtain ⟨lo, hi, low, built, declared, kept⟩ := ComesTo.built use.parsed use.ast use.comes
  obtain ⟨params, present, kinds⟩ := built.paramsTab_eq ▸ built.params_in
  have inside := built.inScope low use.reached fun same => by
    have part := use.part
    rw [same] at part
    cases part
  exact ⟨params, kept ▸ present, fun name info found => (kinds name info found).1, present,
    declared, inside.opened⟩

/-- Only a function with parameters has entries in their table. -/
theorem params_pos (param : use.parser.heap.HasParam use.paramsTab use.used) : 0 < use.params := by
  obtain ⟨lo, hi, _, built, _, kept⟩ := ComesTo.built use.parsed use.ast use.comes
  obtain ⟨table, present, numbers⟩ := built.paramsTab_eq ▸ built.params_in
  obtain ⟨params, info, alive, entry⟩ := param
  rw [← kept, present] at alive
  cases alive
  obtain ⟨_, lower, upper⟩ := numbers _ info entry
  exact Nat.lt_of_lt_of_le lower upper

theorem alive {ir : Ir} (heap : ir.heap = use.visit.ir.heap) :
    ∀ id ∈ use.visit.scope, (ir.heap.sets id).isSome := by
  obtain ⟨params, -, -, present, ⟨globals, present', -⟩, opened⟩ := use.tables
  rw [heap]
  apply opened.alive
  intro id member
  simp only [List.mem_cons, List.not_mem_nil, or_false] at member
  rcases member with rfl | rfl
  · exact Option.isSome_iff_exists.mpr ⟨params, present⟩
  · exact Option.isSome_iff_exists.mpr ⟨globals, present'⟩

/-- A use is one of a global where no other declaration hides it. -/
theorem lvalue?_global_iff :
    use.visit.ir.heap.lvalue? use.visit.scope (some use.used) = some (.global (some use.used)) ↔
      Names (globalNames use.parser.ast) (some use.used) ∧ ¬ use.Hidden := by
  obtain ⟨params, parserTable, kinds, present, globals, opened⟩ := use.tables
  rw [Trident.lvalue?_global_iff, opened.lookup_global_iff present kinds globals, Hidden, not_or]
  have noParam : ¬ use.parser.heap.HasParam use.paramsTab use.used ↔
      params.get use.used = none := by
    simp [HsHeap.HasParam, parserTable, Option.eq_none_iff_forall_ne_some]
  rw [noParam]
  constructor
  · rintro ⟨unhidden, missing, declared⟩
    exact ⟨declared, fun ⟨frame, member, names⟩ => unhidden frame member names, missing⟩
  · rintro ⟨declared, unhidden, missing⟩
    exact ⟨fun frame member names => unhidden ⟨frame, member, names⟩, missing, declared⟩

end NameUse

/-- The generator comes to every use of a name in a function that it accepts. -/
theorem FunctionRun.exists_use (run : FunctionRun) {node : AstNode} {used : Name}
    (written : node ∈ expressionsOf run.body) (member : some used ∈ node.identifiers) :
    ∃ use : NameUse, use.parser = run.parser ∧ use.paramsTab = run.paramsTab ∧
      use.params = run.params ∧ use.used = used ∧
      (∀ frame ∈ use.visit.frames, autoNames frame.body ⊆ autosOf run.body) ∧
      ∃ lv, use.visit.ir.heap.lvalue? use.visit.scope (some used) = some lv := by
  obtain ⟨lo, hi, _, built, _⟩ := run.built
  obtain ⟨ended, started, _⟩ := run.start_ends
  obtain ⟨visit, reached, part⟩ := Visit.covers built.block run.start ended rfl nofun started
    node written
  have declares : run.start.Declares (autosOf run.body) := ⟨nofun, List.Subset.refl _⟩
  obtain ⟨middle, accepted, _⟩ := run.reaches_ends reached
  unfold Visit.Ends Visit.action at accepted
  rw [part] at accepted
  obtain ⟨t, lowered⟩ := discard_eq_ok.mp accepted
  obtain ⟨code, tempC, lowers, _⟩ := irExprF_lowers node lowered
  exact ⟨⟨run.tokens, run.module, run.parser, run.before, run.after, run.name, run.paramsTab,
    run.lableTab, run.params, run.scopeN, run.body, run.ir, visit, node, used, run.parsed, run.ast,
    run.earlier, reached, part, member⟩, rfl, rfl, rfl, rfl, (reached.declares declares).frames,
    lowers.identifiers _ member⟩

section Accepted

variable {tokens : List Token} {module : String} {parser : Parser} {final : Ir}
  {before after : List AstNode} {name : CStr} {paramsTab lableTab params : Nat} {body : AstNode}
  {node : AstNode} {used : Name}

/-- A name that is used in an accepted module is declared in it: by a block of the
function, as its parameter, or as a global. -/
theorem used_declared (parsed : Trident.parser (initParser tokens) = .ok () parser)
    (generated : genIr module parser.ast (initIr parser) = .ok () final)
    (ast : parser.ast = before ++ .function name paramsTab lableTab params body :: after)
    (written : node ∈ body.expressions) (member : some used ∈ node.identifiers) :
    Names body.autos (some used) ∨ parser.heap.HasParam paramsTab used ∨
      Names (globalNames parser.ast) (some used) := by
  obtain ⟨run, rfl, rfl, rfl, rfl, rfl, _⟩ := exists_functionRun_of_ast parsed generated ast
  obtain ⟨use, parser, paramsTab, -, rfl, frames, lv, found⟩ := run.exists_use written member
  rw [← parser, ← paramsTab]
  obtain ⟨params, parserTable, kinds, present, globals, opened⟩ := use.tables
  obtain ⟨table, present', entries⟩ := globals
  obtain ⟨id, info, _, finds⟩ := opened.finds present present' found
  have kept := opened.base_kept
  rcases finds.declared with ⟨frame, inside, stored, autos, same⟩ | ⟨params', info, alive, entry⟩ |
    ⟨globals, info, alive, entry⟩
  · exact .inl ⟨stored, frames frame inside autos, same⟩
  · rw [kept _ List.mem_cons_self, present] at alive
    cases alive
    exact .inr (.inl ⟨params, info, parserTable, entry⟩)
  · rw [kept _ (List.mem_cons_of_mem _ List.mem_cons_self), present'] at alive
    cases alive
    rw [entries] at entry
    by_contra undeclared
    rw [if_neg fun declared => undeclared (.inr (.inr declared))] at entry
    cases entry

end Accepted

end Trident
