import Trident.Ir.Counters
import Mathlib.Data.List.Nodup

/-! The nodes of a function are well formed: the labels they jump to are there,
those made for control flow once each, and every temporary is written once. -/

set_option autoImplicit false

namespace Trident

/-! Nodes that only compute. -/

/-- A node that passes control to the next one and has no word in the frame. -/
def IrNode.Straight : IrNode → Prop
  | .operation _ op _ _ _ _ => op ≠ .alloc
  | .call .. => True
  | _ => False

namespace IrNode.Straight

variable {node : IrNode}

theorem lable? (straight : node.Straight) : node.lable? = none := by
  cases node <;> first | rfl | exact straight.elim

theorem targets (straight : node.Straight) : node.targets = [] := by
  cases node <;> first | rfl | exact straight.elim

theorem isAlloc (straight : node.Straight) : node.isAlloc = false := by
  cases node with
  | operation d op a b imm name => cases op <;> first | rfl | exact absurd rfl straight
  | call => rfl
  | _ => exact straight.elim

end IrNode.Straight

private theorem binopToIrop_ne_alloc (op : TokenKind) : binopToIrop op ≠ .alloc := by
  cases op <;> decide

section Straight

variable {t : Nat} {lv : LValue}

theorem straight_loadNode : (lv.loadNode t).Straight := by
  cases lv <;> simp [LValue.loadNode, IrNode.Straight]

theorem straight_storeNode : (lv.storeNode t).Straight := by
  cases lv <;> simp [LValue.storeNode, IrNode.Straight]

theorem straight_addrNode : (lv.addrNode t).Straight := by
  cases lv <;> simp [LValue.addrNode, IrNode.Straight]

theorem straight_operation {op : IrOp} {a b imm : Nat} {name : CStr} (other : op ≠ .alloc) :
    (IrNode.operation t op a b imm name).Straight := other

private theorem straight_binary {op : TokenKind} {a b : Nat} :
    (IrNode.operation t (binopToIrop op) a b).Straight := binopToIrop_ne_alloc op

theorem Lowers.straight {vars : Vars} {phrase : ExprPhrase} {t t' : Nat} {code : List IrNode}
    {place : Place} (lowered : Lowers vars phrase t code place t') :
    ∀ node ∈ code, node.Straight := by
  have one {node : IrNode} (straight : node.Straight) : ∀ other ∈ [node], other.Straight :=
    List.forall_mem_singleton.mpr straight
  have both {first second : List IrNode} (left : ∀ node ∈ first, node.Straight)
      (right : ∀ node ∈ second, node.Straight) : ∀ node ∈ first ++ second, node.Straight :=
    List.forall_mem_append.mpr ⟨left, right⟩
  have step (op : TokenKind) (lv : LValue) (t : Nat) : ∀ node ∈
      [lv.loadNode (t + 1), IrNode.operation (t + 2) .const 0 0 1,
        .operation (t + 3) (binopToIrop op) (t + 1) (t + 2), lv.storeNode (t + 3)],
      node.Straight :=
    both (one straight_loadNode) (both (one (straight_operation (by decide)))
      (both (one straight_binary) (one straight_storeNode)))
  induction lowered with
  | int | string => exact one (straight_operation (by decide))
  | identifier => exact one straight_loadNode
  | addressOf _ ih => exact both ih (one straight_addrNode)
  | load _ ih => exact both ih (one (straight_operation (by decide)))
  | neg _ ih => exact both ih (one (straight_operation (by decide)))
  | not _ ih =>
      exact both ih (both (one (straight_operation (by decide))) (one (straight_operation (by decide))))
  | inc _ ih => exact both ih (step .add _ _)
  | dec _ ih => exact both ih (step .sub _ _)
  | assign _ _ rightIH leftIH => exact both (both rightIH leftIH) (one straight_storeNode)
  | binary _ _ _ _ leftIH rightIH => exact both (both leftIH rightIH) (one straight_binary)
  | call _ ih => exact both ih (one trivial)
  | lvIdentifier | argsNil => exact List.forall_mem_nil _
  | lvDeref _ ih => exact ih
  | argsCons _ _ argIH argsIH => exact both argIH argsIH

theorem lableDefs_straight {code : List IrNode} (straight : ∀ node ∈ code, node.Straight) :
    lableDefs code = [] :=
  List.filterMap_eq_nil_iff.mpr fun node member => (straight node member).lable?

end Straight

/-! The numbers of labels: how they are given, and that they stay. -/

theorem SameName.symm {left right : CStr} (same : SameName left right) : SameName right left := by
  obtain ⟨some, equal⟩ := same
  refine ⟨?_, equal.symm⟩
  rw [← Option.isSome_map (f := cstr), ← equal, Option.isSome_map]
  exact some

theorem SameName.trans {first second third : CStr} (left : SameName first second)
    (right : SameName second third) : SameName first third :=
  ⟨left.1, left.2.trans right.2⟩

/-- The labels numbered so far: no number was given twice, and names that are
the same have the same number. -/
structure GenState.Numbered (g : GenState) : Prop where
  made_le : ∀ id ∈ g.made, id ≤ g.lables
  made_nodup : g.made.Nodup
  named_le : ∀ name id, g.named name = some id → id ≤ g.lables
  apart : ∀ name id, g.named name = some id → id ∉ g.made
  injective : ∀ name other id, g.named name = some id → g.named other = some id →
    SameName name other
  same : ∀ name other, SameName name other → g.named name = g.named other

/-- Numbers are only added, above those given before. -/
structure GenState.Later (g g' : GenState) : Prop where
  lables_le : g.lables ≤ g'.lables
  named : ∀ name id, g.named name = some id → g'.named name = some id
  new_named : ∀ name id, g'.named name = some id → g.named name = some id ∨ g.lables < id
  made : g.made <+: g'.made

namespace GenState

variable {g middle g' : GenState}

theorem Later.refl (g : GenState) : Later g g :=
  ⟨Nat.le_refl _, fun _ _ known => known, fun _ _ known => .inl known, List.prefix_rfl⟩

theorem Later.of_eq (lables : g'.lables = g.lables) (named : g'.named = g.named)
    (made : g'.made = g.made) : Later g g' :=
  ⟨Nat.le_of_eq lables.symm, fun _ _ known => named ▸ known, fun _ _ known => .inl (named ▸ known),
    made ▸ List.prefix_rfl⟩

theorem Later.trans (left : Later g middle) (right : Later middle g') : Later g g' where
  lables_le := Nat.le_trans left.lables_le right.lables_le
  named name id known := right.named name id (left.named name id known)
  new_named name id known := by
    obtain known | new := right.new_named name id known
    · exact left.new_named name id known
    · exact .inr (Nat.lt_of_le_of_lt left.lables_le new)
  made := left.made.trans right.made

theorem later_number (numbered : g.Numbered) (name : CStr) : Later g (g.number name).2 := by
  unfold number
  split
  case h_1 => exact .refl g
  case h_2 unknown =>
    refine ⟨Nat.le_succ _, fun other id known => ?_, fun other id known => ?_, List.prefix_rfl⟩
    · have different : ¬ SameName other name := fun same => by
        rw [numbered.same other name same, unknown] at known
        cases known
      simp [different, known]
    · by_cases same : SameName other name
      · simp only [same, if_pos, Option.some.injEq] at known
        exact .inr (by omega)
      · simp only [same, if_neg, not_false_eq_true] at known
        exact .inl known

theorem later_make (g : GenState) (count : Nat) : Later g (g.make count) :=
  ⟨Nat.le_add_right _ _, fun _ _ known => known, fun _ _ known => .inl known,
    List.prefix_append _ _⟩

theorem Numbered.number (numbered : g.Numbered) (name : CStr) : (g.number name).2.Numbered := by
  unfold GenState.number
  split
  case h_1 => exact numbered
  case h_2 unknown =>
    have old (other : CStr) (id : Nat) (known : g.named other = some id) : id ≠ g.lables + 1 :=
      fun same => Nat.not_succ_le_self _ (same ▸ numbered.named_le other id known)
    refine ⟨fun id member => Nat.le_succ_of_le (numbered.made_le id member), numbered.made_nodup,
      fun other id known => ?_, fun other id known member => ?_,
      fun first second id left right => ?_, fun first second equal => ?_⟩
    · by_cases same : SameName other name
      · simp only [same, if_pos, Option.some.injEq] at known
        exact Nat.le_of_eq known.symm
      · simp only [same, if_neg, not_false_eq_true] at known
        exact Nat.le_succ_of_le (numbered.named_le other id known)
    · by_cases same : SameName other name
      · simp only [same, if_pos, Option.some.injEq] at known
        exact Nat.not_succ_le_self _ (known ▸ numbered.made_le id member)
      · simp only [same, if_neg, not_false_eq_true] at known
        exact numbered.apart other id known member
    · by_cases same : SameName first name <;> by_cases same' : SameName second name
      · exact same.trans same'.symm
      · simp only [same, same', if_pos, if_neg, not_false_eq_true, Option.some.injEq]
          at left right
        exact absurd left.symm (old second id right)
      · simp only [same, same', if_pos, if_neg, not_false_eq_true, Option.some.injEq]
          at left right
        exact absurd right.symm (old first id left)
      · simp only [same, same', if_neg, not_false_eq_true] at left right
        exact numbered.injective first second id left right
    · by_cases same : SameName second name
      · simp [same, equal.trans same]
      · have same' : ¬ SameName first name := fun found => same (equal.symm.trans found)
        simp [same, same', numbered.same first second equal]

theorem Numbered.make (numbered : g.Numbered) (count : Nat) : (g.make count).Numbered where
  made_le id member := by
    obtain member | member := List.mem_append.mp member
    · exact Nat.le_trans (numbered.made_le id member) (Nat.le_add_right _ _)
    · obtain ⟨i, small, rfl⟩ := List.mem_range'.mp member
      simp only [GenState.make]
      omega
  made_nodup := by
    refine List.nodup_append.mpr ⟨numbered.made_nodup, List.nodup_range', ?_⟩
    rintro id old _ new rfl
    obtain ⟨i, small, rfl⟩ := List.mem_range'.mp new
    have le := numbered.made_le _ old
    omega
  named_le name id known := Nat.le_trans (numbered.named_le name id known) (Nat.le_add_right _ _)
  apart name id known member := by
    obtain member | member := List.mem_append.mp member
    · exact numbered.apart name id known member
    · obtain ⟨i, small, rfl⟩ := List.mem_range'.mp member
      have le := numbered.named_le name _ known
      omega
  injective := numbered.injective
  same := numbered.same

/-- The numbering does not depend on the variables and temporaries. -/
theorem Numbered.of_eq (numbered : g.Numbered) (lables : g'.lables = g.lables)
    (named : g'.named = g.named) (made : g'.made = g.made) : g'.Numbered := by
  obtain ⟨made_le, nodup, named_le, apart, injective, same⟩ := numbered
  rw [← lables] at made_le named_le
  rw [← named] at named_le apart injective same
  rw [← made] at made_le nodup apart
  exact ⟨made_le, nodup, named_le, apart, injective, same⟩

end GenState

/-! Which labels the code of a phrase defines, how often, and where its jumps go. -/

section Labels

variable {declared : CStr → Prop} {endLable : Nat} {phrase : ScopePhrase} {g g' : GenState}
  {code : List (IrNode × List Nat)}

theorem Generates.numbering (generates : Generates declared endLable phrase g code g')
    (numbered : g.Numbered) : g'.Numbered ∧ GenState.Later g g' := by
  induction generates with
  | return_ | expr | auto => exact ⟨numbered.of_eq rfl rfl rfl, .of_eq rfl rfl rfl⟩
  | extrn | nil | noChain => exact ⟨numbered, .refl _⟩
  | lable | goto => exact ⟨numbered.number _, GenState.later_number numbered _⟩
  | scope _ ih | else_ _ ih => exact ih numbered
  | @if_ _ _ _ _ g _ _ _ ih =>
      obtain ⟨last, later⟩ := ih (numbered.make 1)
      exact ⟨last, (g.later_make 1).trans later⟩
  | @while_ _ _ _ _ g _ _ t _ _ _ _ ih =>
      obtain ⟨last, later⟩ := ih ((numbered.make 3).of_eq rfl rfl rfl)
      have lowered : GenState.Later (g.make 3) { g.make 3 with temps := t } := .of_eq rfl rfl rfl
      exact ⟨last, (g.later_make 3).trans (lowered.trans later)⟩
  | cons _ _ firstIH restIH =>
      obtain ⟨middle, first⟩ := firstIH numbered
      obtain ⟨last, rest⟩ := restIH middle
      exact ⟨last, first.trans rest⟩
  | @block _ _ body g g' _ _ ih =>
      obtain ⟨last, later⟩ := ih (numbered.of_eq rfl rfl rfl)
      have entered : GenState.Later g { g with vars := g.vars.hide (autoNames body) } :=
        .of_eq rfl rfl rfl
      have left : GenState.Later g' { g' with vars := g.vars, held := g.held } :=
        .of_eq rfl rfl rfl
      exact ⟨last.of_eq rfl rfl rfl, entered.trans (later.trans left)⟩
  | @elseIf _ _ _ _ _ g _ _ t _ _ _ _ _ _ _ bodyIH chainIH =>
      obtain ⟨middle, body⟩ := bodyIH ((numbered.make 2).of_eq rfl rfl rfl)
      obtain ⟨last, chain⟩ := chainIH middle
      have lowered : GenState.Later (g.make 2) { g.make 2 with temps := t } := .of_eq rfl rfl rfl
      exact ⟨last, (g.later_make 2).trans (lowered.trans (body.trans chain))⟩

theorem GenState.number_made (g : GenState) (name : CStr) : (g.number name).2.made = g.made := by
  unfold GenState.number
  split <;> rfl

theorem GenState.number_named (g : GenState) {name : CStr} (given : name.isSome) :
    (g.number name).2.named name = some (g.number name).1 := by
  unfold GenState.number
  split
  case h_1 known => exact known
  case h_2 => simp [SameName, given]

/-- Every label of the source in the phrase is numbered and defined. -/
theorem Generates.lables_named (generates : Generates declared endLable phrase g code g')
    (given : ∀ name, declared name → name.isSome) (numbered : g.Numbered) :
    ∀ name ∈ phrase.lables, ∃ id, g'.named name = some id ∧
      id ∈ lableDefs (code.map Prod.fst) := by
  induction generates with
  | return_ | expr | auto | extrn | goto | nil | noChain => exact nofun
  | @lable _ name g known =>
      intro other member
      obtain rfl := List.mem_singleton.mp member
      exact ⟨_, g.number_named (given _ known), by simp [IrNode.lable?]⟩
  | scope _ ih | else_ _ ih => exact ih numbered
  | @if_ _ _ _ _ g _ _ _ ih =>
      intro name member
      obtain ⟨id, known, defined⟩ := ih (numbered.make 1) name member
      exact ⟨id, known, by simp [defined]⟩
  | while_ _ _ ih =>
      intro name member
      obtain ⟨id, known, defined⟩ := ih ((numbered.make 3).of_eq rfl rfl rfl) name member
      exact ⟨id, known, by simp [defined]⟩
  | cons first rest firstIH restIH =>
      obtain ⟨middle, _⟩ := first.numbering numbered
      obtain ⟨_, later⟩ := rest.numbering middle
      intro name member
      obtain member | member := List.mem_append.mp member
      · obtain ⟨id, known, defined⟩ := firstIH numbered name member
        exact ⟨id, later.named name id known, by simp [defined]⟩
      · obtain ⟨id, known, defined⟩ := restIH middle name member
        exact ⟨id, known, by simp [defined]⟩
  | block _ ih => exact ih (numbered.of_eq rfl rfl rfl)
  | elseIf _ body chain bodyIH chainIH =>
      obtain ⟨middle, _⟩ := body.numbering ((numbered.make 2).of_eq rfl rfl rfl)
      obtain ⟨_, later⟩ := chain.numbering middle
      intro name member
      obtain member | member := List.mem_append.mp member
      · obtain ⟨id, known, defined⟩ := bodyIH ((numbered.make 2).of_eq rfl rfl rfl) name member
        exact ⟨id, later.named name id known, by simp [defined]⟩
      · obtain ⟨id, known, defined⟩ := chainIH middle name member
        exact ⟨id, known, by simp [defined]⟩

/-- A label is defined as often as it is made for control flow, and once more for
each label of the source with its number. -/
theorem Generates.count_lableDefs_all (generates : Generates declared endLable phrase g code g')
    (given : ∀ name, declared name → name.isSome) (numbered : g.Numbered) (id : Nat) :
    (lableDefs (code.map Prod.fst)).count id + g.made.count id =
      g'.made.count id + (phrase.lables.filterMap g'.named).count id := by
  have earlier : ∀ {phrase : ScopePhrase} {code : List (IrNode × List Nat)} {endLable : Nat}
      {g middle g' : GenState}, Generates declared endLable phrase g code middle → g.Numbered →
      GenState.Later middle g' →
      phrase.lables.filterMap middle.named = phrase.lables.filterMap g'.named := by
    intro phrase code endLable g middle g' first numbered later
    refine List.filterMap_congr fun name member => ?_
    obtain ⟨id, known, _⟩ := first.lables_named given numbered name member
    rw [known, later.named name id known]
  induction generates with
  | return_ lowers =>
      simp [lableDefs_straight lowers.straight, IrNode.lable?, ScopePhrase.lables, AstNode.lables]
  | expr lowers =>
      simp [lableDefs_straight lowers.straight, ScopePhrase.lables, AstNode.lables]
  | auto => simp [IrNode.lable?, ScopePhrase.lables, AstNode.lables]
  | extrn | nil | noChain => simp [ScopePhrase.lables, AstNode.lables, lablesOf, lablesOfChain]
  | @lable _ name g known =>
      have number := g.number_named (given name known)
      simp [GenState.number_made, IrNode.lable?, ScopePhrase.lables, AstNode.lables, number,
        Nat.add_comm]
  | goto => simp [GenState.number_made, IrNode.lable?, ScopePhrase.lables, AstNode.lables]
  | scope _ ih | else_ _ ih => exact ih numbered
  | @if_ _ _ _ _ g _ _ _ ih =>
      have counted := ih (numbered.make 1)
      simp only [GenState.make, Trail.make, List.range'_one, List.count_append] at counted
      simp only [List.map_append, mark_fst, lableDefs_append, lableDefs_cons, IrNode.lable?,
        Option.toList_some, lableDefs_nil, List.append_nil, List.count_append]
      simp only [ScopePhrase.lables, lablesOfChain, AstNode.lables] at counted ⊢
      omega
  | @while_ _ _ _ _ g _ _ _ _ _ lowers _ ih =>
      have counted := ih ((numbered.make 3).of_eq rfl rfl rfl)
      have straight := lableDefs_straight lowers.straight
      simp only [GenState.make, Trail.make, List.range'_succ, List.range'_zero, List.count_append,
        List.count_cons, List.count_nil, Nat.add_assoc, Nat.reduceAdd] at counted
      simp only [List.map_append, mark_fst, List.cons_append, lableDefs_append, lableDefs_cons,
        straight, IrNode.lable?, Option.toList_some, Option.toList_none, lableDefs_nil,
        List.nil_append, List.append_nil, List.count_append, List.count_cons, List.count_nil]
      simp only [ScopePhrase.lables, AstNode.lables] at counted ⊢
      omega
  | cons first rest firstIH restIH =>
      obtain ⟨middle, _⟩ := first.numbering numbered
      obtain ⟨_, later⟩ := rest.numbering middle
      have inner := firstIH numbered
      have outer := restIH middle
      rw [earlier first numbered later] at inner
      have all : ∀ {node : AstNode} {nodes : List AstNode},
          (ScopePhrase.stmts (node :: nodes)).lables =
            (ScopePhrase.stmt node).lables ++ (ScopePhrase.stmts nodes).lables := rfl
      rw [all]
      simp only [List.map_append, lableDefs_append, List.count_append, List.filterMap_append]
      omega
  | block _ ih => exact ih (numbered.of_eq rfl rfl rfl)
  | @elseIf _ _ _ _ _ g _ _ _ _ _ _ _ lowers body chain bodyIH chainIH =>
      obtain ⟨middle, _⟩ := body.numbering ((numbered.make 2).of_eq rfl rfl rfl)
      obtain ⟨_, later⟩ := chain.numbering middle
      have inner := bodyIH ((numbered.make 2).of_eq rfl rfl rfl)
      have outer := chainIH middle
      have straight := lableDefs_straight lowers.straight
      rw [earlier body ((numbered.make 2).of_eq rfl rfl rfl) later] at inner
      simp only [GenState.make, Trail.make, List.range'_succ, List.range'_zero, List.count_append,
        List.count_cons, List.count_nil, Nat.add_assoc, Nat.reduceAdd] at inner
      simp only [List.map_append, mark_fst, lableDefs_append, lableDefs_cons, straight,
        IrNode.lable?, Option.toList_some, Option.toList_none, lableDefs_nil, List.nil_append,
        List.append_nil, List.count_append, List.count_cons, List.count_nil]
      simp only [ScopePhrase.lables, lablesOfChain, AstNode.lables, List.filterMap_append,
        List.count_append] at inner outer ⊢
      omega

/-- The labels that are not named are defined as often as they are made. -/
theorem Generates.count_lableDefs (generates : Generates declared endLable phrase g code g')
    (given : ∀ name, declared name → name.isSome) (numbered : g.Numbered) {id : Nat}
    (unnamed : ∀ name, g'.named name ≠ some id) :
    (lableDefs (code.map Prod.fst)).count id + g.made.count id = g'.made.count id := by
  have none_named : (phrase.lables.filterMap g'.named).count id = 0 := by
    rw [List.count_eq_zero]
    intro member
    obtain ⟨name, _, known⟩ := List.mem_filterMap.mp member
    exact unnamed name known
  have counted := generates.count_lableDefs_all given numbered id
  rwa [none_named, Nat.add_zero] at counted

/-- Only declarations in the phrase's own scope are seen after it. -/
theorem Generates.scope_eq (generates : Generates declared endLable phrase g code g')
    (undeclared : phrase.autos = []) : g'.vars = g.vars ∧ g'.held = g.held := by
  induction generates with
  | return_ | expr | extrn | nil | noChain | block => exact ⟨rfl, rfl⟩
  | auto => cases undeclared
  | @lable _ name g | @goto _ name g =>
      unfold GenState.number
      split <;> exact ⟨rfl, rfl⟩
  | scope _ ih | else_ _ ih | if_ _ ih | while_ _ _ ih => exact ih rfl
  | @cons _ node nodes _ _ _ _ _ _ _ firstIH restIH =>
      have split : autoNames [node] ++ autoNames nodes = [] := by
        rw [← autoNames_append]
        exact undeclared
      obtain ⟨first, rest⟩ := List.append_eq_nil_iff.mp split
      obtain ⟨vars, held⟩ := firstIH first
      obtain ⟨vars', held'⟩ := restIH rest
      exact ⟨vars'.trans vars, held'.trans held⟩
  | elseIf _ _ _ bodyIH chainIH =>
      obtain ⟨vars, held⟩ := bodyIH rfl
      obtain ⟨vars', held'⟩ := chainIH rfl
      exact ⟨vars'.trans vars, held'.trans held⟩

/-- Where a jump in a phrase goes: to a label made in the phrase, with the same
variables declared; to a label of the source; or, in a chain, to its end. -/
theorem Generates.targets_known (generates : Generates declared endLable phrase g code g')
    (given : ∀ name, declared name → name.isSome) (numbered : g.Numbered) :
    ∀ node kept, (node, kept) ∈ code → ∀ id ∈ node.targets,
      (id ∈ g'.made ∧ (.label id, kept) ∈ code) ∨
      (node = .jump id ∧ ∃ name, declared name ∧ g'.named name = some id) ∨
      (id = endLable ∧ kept = g.held ∧ ∃ chain, phrase = .chain chain) := by
  induction generates with
  | return_ lowers =>
      intro node kept member id target
      obtain ⟨inside, _⟩ := mem_mark.mp member
      obtain inside | returns := List.mem_append.mp inside
      · simp [(lowers.straight node inside).targets] at target
      · obtain rfl := List.mem_singleton.mp returns
        cases target
  | expr lowers =>
      intro node kept member id target
      obtain ⟨inside, _⟩ := mem_mark.mp member
      simp [(lowers.straight node inside).targets] at target
  | auto | lable =>
      intro node kept member id target
      obtain ⟨inside, _⟩ := mem_mark.mp member
      obtain rfl := List.mem_singleton.mp inside
      cases target
  | extrn | nil | noChain => exact nofun
  | @goto _ name g known =>
      intro node kept member id target
      obtain ⟨inside, _⟩ := mem_mark.mp member
      obtain rfl := List.mem_singleton.mp inside
      obtain rfl := List.mem_singleton.mp target
      exact .inr (.inl ⟨rfl, name, known, g.number_named (given name known)⟩)
  | scope _ ih =>
      intro node kept member id target
      obtain made | named | ⟨_, _, _, ⟨⟩⟩ := ih numbered node kept member id target
      · exact .inl made
      · exact .inr (.inl named)
  | else_ _ ih =>
      intro node kept member id target
      obtain made | named | ⟨_, _, _, ⟨⟩⟩ := ih numbered node kept member id target
      · exact .inl made
      · exact .inr (.inl named)
  | block _ ih =>
      intro node kept member id target
      obtain made | named | ⟨_, _, _, ⟨⟩⟩ :=
        ih (numbered.of_eq rfl rfl rfl) node kept member id target
      · exact .inl made
      · exact .inr (.inl named)
  | @if_ _ _ _ _ g code g' generates ih =>
      have later := (generates.numbering (numbered.make 1)).2
      have made : g.lables + 1 ∈ g'.made :=
        later.made.subset (by simp [GenState.make, Trail.make])
      intro node kept member id target
      obtain member | member := List.mem_append.mp member
      · obtain ⟨inner, defined⟩ | named | ⟨rfl, rfl, _⟩ :=
          ih (numbered.make 1) node kept member id target
        · exact .inl ⟨inner, List.mem_append_left _ defined⟩
        · exact .inr (.inl named)
        · exact .inl ⟨made, List.mem_append_right _ (mem_mark.mpr ⟨by simp, rfl⟩)⟩
      · obtain ⟨inside, _⟩ := mem_mark.mp member
        obtain rfl := List.mem_singleton.mp inside
        cases target
  | @while_ _ _ _ _ g code c t bodyCode g' lowers generates ih =>
      have later := (generates.numbering ((numbered.make 3).of_eq rfl rfl rfl)).2
      have made (i : Nat) (small : i < 3) : g.lables + 1 + i ∈ g'.made :=
        later.made.subset (List.mem_append_right _
          (List.mem_range'_1.mpr ⟨Nat.le_add_right _ _, by omega⟩))
      intro node kept member id target
      simp only [List.mem_append, mem_mark, List.mem_cons, List.not_mem_nil, or_false] at member ⊢
      obtain (⟨((rfl | inside) | rfl | rfl), rfl⟩ | inner) | ⟨(rfl | rfl), rfl⟩ := member
      · cases target
      · simp [(lowers.straight node inside).targets] at target
      · simp only [IrNode.targets, List.mem_cons, List.not_mem_nil, or_false] at target
        obtain rfl | rfl := target
        · exact .inl ⟨made 1 (by omega), by simp⟩
        · exact .inl ⟨made 2 (by omega), by simp⟩
      · cases target
      · obtain ⟨inner, defined⟩ | named | ⟨_, _, _, ⟨⟩⟩ :=
          ih ((numbered.make 3).of_eq rfl rfl rfl) node kept inner id target
        · exact .inl ⟨inner, .inl (.inr defined)⟩
        · exact .inr (.inl named)
      · obtain rfl := List.mem_singleton.mp target
        exact .inl ⟨made 0 (by omega), by simp⟩
      · cases target
  | cons first rest firstIH restIH =>
      obtain ⟨middle, _⟩ := first.numbering numbered
      obtain ⟨_, later⟩ := rest.numbering middle
      intro node kept member id target
      obtain member | member := List.mem_append.mp member
      · obtain ⟨made, defined⟩ | ⟨jump, name, known, number⟩ | ⟨_, _, _, ⟨⟩⟩ :=
          firstIH numbered node kept member id target
        · exact .inl ⟨later.made.subset made, List.mem_append_left _ defined⟩
        · exact .inr (.inl ⟨jump, name, known, later.named name id number⟩)
      · obtain ⟨made, defined⟩ | named | ⟨_, _, _, ⟨⟩⟩ :=
          restIH middle node kept member id target
        · exact .inl ⟨made, List.mem_append_right _ defined⟩
        · exact .inr (.inl named)
  | @elseIf endLable _ _ _ _ g code c t bodyCode middle chainCode g' lowers body chained bodyIH
      chainIH =>
      obtain ⟨numbered', inner⟩ := body.numbering ((numbered.make 2).of_eq rfl rfl rfl)
      obtain ⟨_, later⟩ := chained.numbering numbered'
      have made (i : Nat) (small : i < 2) : g.lables + 1 + i ∈ g'.made :=
        later.made.subset (inner.made.subset (List.mem_append_right _
          (List.mem_range'_1.mpr ⟨Nat.le_add_right _ _, by omega⟩)))
      have held : middle.held = g.held := (body.scope_eq rfl).2
      intro node kept member id target
      simp only [List.mem_append, mem_mark, List.mem_cons, List.not_mem_nil, or_false] at member ⊢
      obtain ((⟨(inside | rfl | rfl), rfl⟩ | inner) | ⟨(rfl | rfl), rfl⟩) | outer := member
      · simp [(lowers.straight node inside).targets] at target
      · simp only [IrNode.targets, List.mem_cons, List.not_mem_nil, or_false] at target
        obtain rfl | rfl := target
        · exact .inl ⟨made 0 (by omega), by simp⟩
        · exact .inl ⟨made 1 (by omega), by simp⟩
      · cases target
      · obtain ⟨inner, defined⟩ | ⟨jump, name, known, number⟩ | ⟨_, _, _, ⟨⟩⟩ :=
          bodyIH ((numbered.make 2).of_eq rfl rfl rfl) node kept inner id target
        · exact .inl ⟨later.made.subset inner, .inl (.inl (.inr defined))⟩
        · exact .inr (.inl ⟨jump, name, known, later.named name id number⟩)
      · obtain rfl := List.mem_singleton.mp target
        exact .inr (.inr ⟨rfl, rfl, _, rfl⟩)
      · cases target
      · obtain ⟨inner, defined⟩ | named | ⟨last, same, _⟩ :=
          chainIH numbered' node kept outer id target
        · exact .inl ⟨inner, .inr defined⟩
        · exact .inr (.inl named)
        · exact .inr (.inr ⟨last, same.trans held, _, rfl⟩)

end Labels

/-! Temporaries are written once, in the order of their numbers. -/

section Temporaries

private theorem tempsUsed_label (t id : Nat) : TempsUsed t t [.label id] := .keep rfl nofun

private theorem tempsUsed_jump (t id : Nat) : TempsUsed t t [.jump id] := .keep rfl nofun

private theorem tempsUsed_branch {t a : Nat} (id idF : Nat) (between : 1 ≤ a ∧ a ≤ t) :
    TempsUsed t t [.branch id idF a] :=
  .keep rfl (List.forall_mem_singleton.mpr between)

private theorem tempsUsed_ret {t a : Nat} (between : 1 ≤ a ∧ a ≤ t) : TempsUsed t t [.ret a] :=
  .keep rfl (List.forall_mem_singleton.mpr between)

theorem Generates.tempsUsed {declared : CStr → Prop} {endLable : Nat} {phrase : ScopePhrase}
    {g g' : GenState} {code : List (IrNode × List Nat)}
    (generates : Generates declared endLable phrase g code g')
    (bounded : VarsUpTo g.temps g.vars) :
    TempsUsed g.temps g'.temps (code.map Prod.fst) ∧ VarsUpTo g'.temps g'.vars := by
  induction generates with
  | return_ lowers =>
      obtain ⟨used, between⟩ := lowers.tempsUsed bounded
      rw [mark_fst]
      exact ⟨used.append (tempsUsed_ret between), bounded.mono used.le⟩
  | expr lowers =>
      obtain ⟨used, _⟩ := lowers.tempsUsed bounded
      rw [mark_fst]
      exact ⟨used, bounded.mono used.le⟩
  | @auto _ _ _ g =>
      exact ⟨.write rfl nofun, bounded.bind (Nat.le_succ _) ⟨Nat.le_add_left 1 _, Nat.le_refl _⟩⟩
  | extrn | nil | noChain => exact ⟨.nil, bounded⟩
  | @lable _ name g =>
      rw [mark_fst]
      unfold GenState.number
      split <;> exact ⟨tempsUsed_label _ _, bounded⟩
  | @goto _ name g =>
      rw [mark_fst]
      unfold GenState.number
      split <;> exact ⟨tempsUsed_jump _ _, bounded⟩
  | scope _ ih | else_ _ ih => exact ih bounded
  | if_ _ ih =>
      obtain ⟨used, bounded⟩ := ih bounded
      rw [List.map_append, mark_fst]
      exact ⟨used.append (tempsUsed_label _ _), bounded⟩
  | @while_ _ _ _ _ g _ _ _ _ g' lowers _ ih =>
      obtain ⟨condition, between⟩ := lowers.tempsUsed bounded
      obtain ⟨inner, bounded'⟩ := ih (bounded.mono condition.le)
      rw [List.map_append, List.map_append, mark_fst, mark_fst]
      have start := tempsUsed_label g.temps (g.lables + 1)
      have test := (tempsUsed_branch (g.lables + 2) (g.lables + 3) between).append
        (tempsUsed_label _ (g.lables + 2))
      have back := (tempsUsed_jump g'.temps (g.lables + 1)).append
        (tempsUsed_label _ (g.lables + 3))
      exact ⟨((start.append (condition.append test)).append inner).append back, bounded'⟩
  | cons first rest firstIH restIH =>
      obtain ⟨first, bounded⟩ := firstIH bounded
      obtain ⟨rest, bounded⟩ := restIH bounded
      rw [List.map_append]
      exact ⟨first.append rest, bounded⟩
  | block _ ih =>
      obtain ⟨used, _⟩ := ih bounded.hide
      exact ⟨used, bounded.mono used.le⟩
  | @elseIf endLable _ _ _ _ g _ _ _ _ middle _ _ lowers body chained bodyIH chainIH =>
      obtain ⟨condition, between⟩ := lowers.tempsUsed bounded
      obtain ⟨inner, bounded⟩ := bodyIH (bounded.mono condition.le)
      obtain ⟨rest, bounded⟩ := chainIH bounded
      simp only [List.map_append, mark_fst]
      have test := (tempsUsed_branch (g.lables + 1) (g.lables + 2) between).append
        (tempsUsed_label _ (g.lables + 1))
      have skip := (tempsUsed_jump middle.temps endLable).append
        (tempsUsed_label _ (g.lables + 2))
      exact ⟨(((condition.append test).append inner).append skip).append rest, bounded⟩

private theorem dests_paramCode (params i t : Nat) :
    dests (paramCode (params + 1) i t) =
      (t + 1) :: i :: dests (paramCode params (i + 1) (t + 1)) := rfl

private theorem count_dests_paramCode {params i t d : Nat} (above : i + params ≤ d) :
    (dests (paramCode params i t)).count d = if t < d ∧ d ≤ t + params then 1 else 0 := by
  induction params generalizing i t with
  | zero =>
      rw [if_neg (by omega)]
      rfl
  | succ params ih =>
      have rest := ih (i := i + 1) (t := t + 1) (by omega)
      have other : i ≠ d := by omega
      rw [dests_paramCode, List.count_cons, List.count_cons, rest]
      by_cases first : t + 1 = d
      · have gone : ¬ (t + 1 < d ∧ d ≤ t + 1 + params) := by omega
        have here : t < d ∧ d ≤ t + (params + 1) := by omega
        rw [if_neg gone, if_pos here]
        simp [first, other]
      · have window : t + 1 < d ∧ d ≤ t + 1 + params ↔ t < d ∧ d ≤ t + (params + 1) := by omega
        simp [first, other, window]

private theorem mentionsUpTo_paramCode {params i t : Nat} (low : 1 ≤ i) (high : i + params ≤ t + 1) :
    MentionsUpTo (t + params) (paramCode params i t) := by
  induction params generalizing i t with
  | zero => exact .nil
  | succ params ih =>
      have rest := ih (i := i + 1) (t := t + 1) (by omega) (by omega)
      have total : t + 1 + params = t + (params + 1) := by omega
      rw [total] at rest
      refine .cons ?_ (.cons ?_ (.cons ?_ rest))
      all_goals
        simp only [IrNode.mentions, IrNode.dest?, IrNode.reads, Option.toList_some,
          Option.toList_none, List.append_nil, List.nil_append, List.cons_append, List.mem_cons,
          List.not_mem_nil, or_false, forall_eq_or_imp, forall_eq]
        omega

end Temporaries

/-! The nodes of a whole function. -/

/-- The nodes of a function with `params` parameters and the labels `lables`:
`made` are the labels for the entry and for control flow, and `temps` is the last
temporary. -/
structure WellFormed (params : Nat) (lables : List CStr) (nodes : List IrNode)
    (named : CStr → Option Nat) (made : List Nat) (temps : Nat) : Prop where
  entry : ∃ rest, nodes = .label 1 :: rest
  last : ∃ t, nodes.getLast? = some (.ret t)
  targets : ∀ id ∈ lableUses nodes, .label id ∈ nodes
  named_defined : ∀ name ∈ lables, ∃ id, named name = some id ∧ .label id ∈ nodes
  entry_made : 1 ∈ made
  made_nodup : made.Nodup
  made_once : ∀ id ∈ made, nodes.count (.label id) = 1
  made_apart : ∀ name id, named name = some id → id ∉ made
  named_injective : ∀ name other id, named name = some id → named other = some id →
    SameName name other
  written_once : ∀ t, params < t → t ≤ temps → (dests nodes).count t = 1
  mentioned : ∀ node ∈ nodes, ∀ t ∈ node.mentions, 1 ≤ t ∧ t ≤ temps

section Function

variable {params temps : Nat} {vars : Vars} {scopeN : AstScope} {body : List AstNode}
  {nodes : List IrNode} {code : List (IrNode × List Nat)} {g : GenState}

theorem entry_numbered (params : Nat) (vars : Vars) : (GenState.entry params vars).Numbered where
  made_le id member := Nat.le_of_eq (List.mem_singleton.mp member)
  made_nodup := by simp [GenState.entry]
  named_le := nofun
  apart := nofun
  injective := nofun
  same _ _ _ := rfl

theorem names_isSome {names : List CStr} (name : CStr) (known : Names names name) :
    name.isSome := by
  obtain ⟨_, _, same⟩ := known
  exact same.1

theorem paramCode_lables (params i t : Nat) :
    lableDefs (paramCode params i t) = [] ∧ lableUses (paramCode params i t) = [] := by
  induction params generalizing i t with
  | zero => exact ⟨rfl, rfl⟩
  | succ params ih => exact ih (i + 1) (t + 1)

theorem finalReturn_lables (nodes : List IrNode) (t : Nat) :
    lableDefs (finalReturn nodes t) = [] ∧ lableUses (finalReturn nodes t) = [] := by
  unfold finalReturn
  split <;> exact ⟨rfl, rfl⟩

private theorem finalReturn_last (nodes : List IrNode) (t : Nat) :
    ∃ t', (nodes ++ finalReturn nodes t).getLast? = some (.ret t') := by
  unfold finalReturn
  split
  case isTrue returns =>
    rw [List.append_nil]
    cases last : nodes.getLast? with
    | none => simp [last] at returns
    | some node =>
        rw [last] at returns
        cases node <;> first | exact ⟨_, rfl⟩ | cases returns
  case isFalse => exact ⟨t + 1, by simp⟩

private theorem tempsUsed_finalReturn (nodes : List IrNode) (t : Nat) :
    TempsUsed t (finalTemps nodes t) (finalReturn nodes t) := by
  unfold finalReturn finalTemps
  split
  case isTrue => exact .nil
  case isFalse =>
    have zero : TempsUsed t (t + 1) [.operation (t + 1) .const 0 0 0] := .write rfl nofun
    exact zero.append (tempsUsed_ret ⟨Nat.le_add_left 1 t, Nat.le_refl _⟩)

theorem FunctionCode.wellFormed
    (function : FunctionCode params vars scopeN body nodes temps code g)
    (bounded : VarsUpTo params vars) :
    WellFormed params (lablesOf body) nodes g.named g.made temps := by
  obtain ⟨generates, rfl, rfl⟩ := function
  have start := entry_numbered params vars
  have given : ∀ name, Names (lablesOf body) name → name.isSome := names_isSome
  obtain ⟨numbered, later⟩ := generates.numbering start
  obtain ⟨paramDefs, paramUses⟩ := paramCode_lables params 1 params
  obtain ⟨used, _⟩ := generates.tempsUsed (bounded.mono (Nat.le_add_left params params))
  generalize finalEq : finalReturn (.label 1 :: paramCode params 1 params ++ code.map Prod.fst)
    g.temps = final
  obtain ⟨finalDefs, finalUses⟩ : lableDefs final = [] ∧ lableUses final = [] :=
    finalEq ▸ finalReturn_lables _ _
  have finalUsed : TempsUsed g.temps
      (finalTemps (.label 1 :: paramCode params 1 params ++ code.map Prod.fst) g.temps) final :=
    finalEq ▸ tempsUsed_finalReturn _ _
  have defs : lableDefs (.label 1 :: paramCode params 1 params ++ code.map Prod.fst ++ final) =
      1 :: lableDefs (code.map Prod.fst) := by
    simp [paramDefs, finalDefs, IrNode.lable?]
  have uses : lableUses (.label 1 :: paramCode params 1 params ++ code.map Prod.fst ++ final) =
      lableUses (code.map Prod.fst) := by
    simp [paramUses, finalUses, IrNode.targets]
  have named_defined : ∀ name ∈ lablesOf body, ∃ id, g.named name = some id ∧
      .label id ∈ .label 1 :: paramCode params 1 params ++ code.map Prod.fst ++ final := by
    intro name member
    obtain ⟨id, known, defined⟩ := generates.lables_named given start name member
    exact ⟨id, known, mem_lableDefs.mp (by rw [defs]; exact List.mem_cons_of_mem _ defined)⟩
  have made_once (id : Nat) (member : id ∈ g.made) :
      (.label 1 :: paramCode params 1 params ++ code.map Prod.fst ++ final).count
        (IrNode.label id) = 1 := by
    have unnamed (name : CStr) (known : g.named name = some id) : False :=
      numbered.apart name id known member
    have counted := generates.count_lableDefs given start unnamed
    rw [← count_lableDefs, defs]
    have once := List.count_eq_one_of_mem numbered.made_nodup member
    rw [once] at counted
    simpa [GenState.entry, List.count_cons] using counted
  exact {
    entry := ⟨_, rfl⟩
    last := finalEq ▸ finalReturn_last _ _
    targets := by
      intro id member
      rw [uses] at member
      obtain ⟨_, inside, target⟩ := List.mem_flatMap.mp member
      obtain ⟨⟨node, kept⟩, marked, rfl⟩ := List.mem_map.mp inside
      obtain ⟨_, defined⟩ | ⟨_, name, ⟨stored, inside, same⟩, number⟩ | ⟨_, _, _, ⟨⟩⟩ :=
        generates.targets_known given start node kept marked id target
      · have inside : .label id ∈ code.map Prod.fst := List.mem_map.mpr ⟨_, defined, rfl⟩
        simp [inside]
      · obtain ⟨id', number', defined⟩ := named_defined stored inside
        rw [← numbered.same name stored same, number] at number'
        cases number'
        exact defined
    named_defined
    entry_made := later.made.subset (List.mem_singleton.mpr rfl)
    made_nodup := numbered.made_nodup
    made_once
    made_apart := numbered.apart
    named_injective := numbered.injective
    written_once := by
      intro t low high
      have params_once : (dests (paramCode params 1 params)).count t =
          if params < t ∧ t ≤ params + params then 1 else 0 := count_dests_paramCode (by omega)
      have rest_once := (used.append finalUsed).count_dests t
      have split : dests (.label 1 :: paramCode params 1 params ++ code.map Prod.fst ++ final) =
          dests (paramCode params 1 params) ++ dests (code.map Prod.fst ++ final) := by
        rw [List.append_assoc, dests_append]
        rfl
      rw [split, List.count_append, params_once, rest_once]
      change (if params < t ∧ t ≤ params + params then 1 else 0) +
        (if params + params < t ∧ t ≤ _ then 1 else 0) = 1
      by_cases low : t ≤ params + params
      · rw [if_pos ⟨by assumption, low⟩, if_neg (by omega)]
      · rw [if_neg (by omega), if_pos ⟨by omega, high⟩]
    mentioned := by
      have total := (used.append finalUsed).le
      have first : MentionsUpTo (params + params) (.label 1 :: paramCode params 1 params) :=
        .cons (List.forall_mem_nil _) (mentionsUpTo_paramCode (Nat.le_refl 1) (by omega))
      have all := (first.mono total).append (used.append finalUsed).mentions
      rwa [← List.append_assoc] at all }

end Function

namespace FunctionRun

variable (run : FunctionRun)

theorem vars_upTo : VarsUpTo run.params run.vars := by
  intro name lv found
  obtain rfl | ⟨k, rfl, low, high⟩ := run.vars_eq_some found
  · trivial
  · exact ⟨low, high⟩

/-- The nodes that `ir_function_s` makes of a function are well formed. -/
theorem irFunctionS_wellFormed : ∃ code g,
    FunctionCode run.params run.vars run.scopeN run.body run.nodes run.final.tempC code g ∧
      WellFormed run.params (lablesOf run.body) run.nodes g.named g.made run.final.tempC := by
  obtain ⟨code, g, function⟩ := run.functionCode
  exact ⟨code, g, function, function.wellFormed run.vars_upTo⟩

end FunctionRun

/-- A function with a `goto`, an `if` and a `while`. -/
def jumpsRun : FunctionRun :=
  (FunctionRun.first? (sourceTokens
    "f(n) \x7b L: if (n) \x7b --n; goto L; \x7d while (n) \x7b n = 0; \x7d \x7d".toList) "jumps.b").get
    (by decide +kernel)

/-- The nodes of that function. -/
def jumpsNodes : List IrNode :=
  [.label 1, .operation 2 .alloc 0 0, .operation 0 .store 2 1, .operation 1 .address 2 0, .label 2,
    .operation 3 .load 1 0, .branch 4 5 3, .label 4, .operation 4 .load 1 0, .operation 5 .const 0 0 1,
    .operation 6 .sub 4 5, .operation 0 .store 1 6, .jump 2, .jump 3, .label 5, .label 3, .label 6,
    .operation 7 .load 1 0, .branch 7 8 7, .label 7, .operation 8 .const 0 0, .operation 0 .store 1 8,
    .jump 6, .label 8, .operation 9 .const 0 0, .ret 9]

theorem irFunctionS_wellFormed_jumps : ∃ named made,
    WellFormed 1 [some [byte 'L']] jumpsNodes named made 9 := by
  obtain ⟨code, g, -, formed⟩ := jumpsRun.irFunctionS_wellFormed
  rw [show jumpsRun.params = 1 by decide +kernel,
    show lablesOf jumpsRun.body = [some [byte 'L']] by decide +kernel,
    show jumpsRun.nodes = jumpsNodes by decide +kernel,
    show jumpsRun.final.tempC = 9 by decide +kernel] at formed
  exact ⟨g.named, g.made, formed⟩

end Trident
