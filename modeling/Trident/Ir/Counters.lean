import Trident.Ir.Function

/-! What code generation does to its counters: the temporaries that a piece of
code writes and mentions, and the labels that it defines and jumps to. -/

set_option autoImplicit false

namespace Trident

namespace IrNode

/-- The temporary that a node writes. -/
def dest? : IrNode → Option Nat
  | .operation _ .store _ _ _ _ => none
  | .operation _ .globalS _ _ _ _ => none
  | .operation d _ _ _ _ _ => some d
  | .call d _ _ => some d
  | _ => none

/-- The temporaries that a node reads. -/
def reads : IrNode → List Nat
  | .operation _ .const _ _ _ _ => []
  | .operation _ .data _ _ _ _ => []
  | .operation _ .alloc _ _ _ _ => []
  | .operation _ .globalL _ _ _ _ => []
  | .operation _ .globalAddr _ _ _ _ => []
  | .operation _ .address a _ _ _ => [a]
  | .operation _ .load a _ _ _ => [a]
  | .operation _ .neg a _ _ _ => [a]
  | .operation _ .globalS _ b _ _ => [b]
  | .operation _ _ a b _ _ => [a, b]
  | .call _ _ args => args
  | .branch _ _ t => [t]
  | .ret t => [t]
  | _ => []

def mentions (node : IrNode) : List Nat := node.dest?.toList ++ node.reads

/-- The label that a node defines. -/
def lable? : IrNode → Option Nat
  | .label id => some id
  | _ => none

/-- The labels that a node jumps to. -/
def targets : IrNode → List Nat
  | .jump id => [id]
  | .branch id idF _ => [id, idF]
  | _ => []

end IrNode

def dests (nodes : List IrNode) : List Nat := nodes.filterMap IrNode.dest?

def lableDefs (nodes : List IrNode) : List Nat := nodes.filterMap IrNode.lable?

/-- The labels that are jumped to. -/
def lableUses (nodes : List IrNode) : List Nat := nodes.flatMap IrNode.targets

@[simp] theorem lableUses_nil : lableUses [] = [] := rfl

@[simp] theorem lableUses_cons (node : IrNode) (nodes : List IrNode) :
    lableUses (node :: nodes) = node.targets ++ lableUses nodes := rfl

@[simp] theorem lableUses_append (first second : List IrNode) :
    lableUses (first ++ second) = lableUses first ++ lableUses second := List.flatMap_append

@[simp] theorem lableDefs_nil : lableDefs [] = [] := rfl

@[simp] theorem lableDefs_cons (node : IrNode) (nodes : List IrNode) :
    lableDefs (node :: nodes) = node.lable?.toList ++ lableDefs nodes := by
  cases node <;> rfl

@[simp] theorem dests_append (first second : List IrNode) :
    dests (first ++ second) = dests first ++ dests second := List.filterMap_append

@[simp] theorem lableDefs_append (first second : List IrNode) :
    lableDefs (first ++ second) = lableDefs first ++ lableDefs second := List.filterMap_append

theorem mem_lableDefs {nodes : List IrNode} {id : Nat} :
    id ∈ lableDefs nodes ↔ .label id ∈ nodes := by
  constructor
  · intro member
    obtain ⟨node, inside, same⟩ := List.mem_filterMap.mp member
    cases node <;> cases same
    exact inside
  · exact fun member => List.mem_filterMap.mpr ⟨_, member, rfl⟩

theorem count_lableDefs (nodes : List IrNode) (id : Nat) :
    (lableDefs nodes).count id = nodes.count (.label id) := by
  induction nodes with
  | nil => rfl
  | cons node rest ih =>
      cases node <;> simp [lableDefs, IrNode.lable?, List.count_cons] <;> exact ih

/-- All temporaries mentioned are between one and `t`. -/
def MentionsUpTo (t : Nat) (nodes : List IrNode) : Prop :=
  ∀ node ∈ nodes, ∀ i ∈ node.mentions, 1 ≤ i ∧ i ≤ t

namespace MentionsUpTo

variable {t t' : Nat} {first second : List IrNode}

theorem nil : MentionsUpTo t [] := nofun

theorem mono (mentions : MentionsUpTo t first) (le : t ≤ t') : MentionsUpTo t' first :=
  fun node member i mention =>
    ⟨(mentions node member i mention).1, Nat.le_trans (mentions node member i mention).2 le⟩

theorem append (left : MentionsUpTo t first) (right : MentionsUpTo t second) :
    MentionsUpTo t (first ++ second) := by
  intro node member
  obtain member | member := List.mem_append.mp member
  · exact left node member
  · exact right node member

theorem cons {node : IrNode} (head : ∀ i ∈ node.mentions, 1 ≤ i ∧ i ≤ t)
    (tail : MentionsUpTo t second) : MentionsUpTo t (node :: second) := by
  intro other member
  obtain rfl | member := List.mem_cons.mp member
  · exact head
  · exact tail other member

end MentionsUpTo

/-- The temporary of an lvalue is between one and `t`. -/
def LValue.Between (t : Nat) : LValue → Prop
  | .global _ => True
  | .local_ addrTemp => 1 ≤ addrTemp ∧ addrTemp ≤ t

/-- The storage of all variables is among the temporaries up to `t`. -/
def VarsUpTo (t : Nat) (vars : Vars) : Prop := ∀ name lv, vars name = some lv → lv.Between t

theorem LValue.Between.mono {t t' : Nat} {lv : LValue} (between : lv.Between t) (le : t ≤ t') :
    lv.Between t' := by
  cases lv with
  | global => trivial
  | local_ addrTemp => exact ⟨between.1, Nat.le_trans between.2 le⟩

theorem VarsUpTo.mono {t t' : Nat} {vars : Vars} (bounded : VarsUpTo t vars) (le : t ≤ t') :
    VarsUpTo t' vars := fun name lv found => (bounded name lv found).mono le

theorem VarsUpTo.bind {t t' : Nat} {vars : Vars} {name : CStr} {lv : LValue}
    (bounded : VarsUpTo t vars) (le : t ≤ t') (between : lv.Between t') :
    VarsUpTo t' (vars.bind name lv) := by
  intro other lv' found
  rw [Vars.bind] at found
  split at found
  · cases found
    exact between
  · exact (bounded other lv' found).mono le

theorem VarsUpTo.hide {t : Nat} {vars : Vars} {names : List CStr} (bounded : VarsUpTo t vars) :
    VarsUpTo t (vars.hide names) := by
  intro other lv found
  rw [Vars.hide] at found
  split at found
  · cases found
  · exact bounded other lv found

/-- Where a value is left is among the temporaries up to `t`. -/
def Place.Between (t : Nat) : Place → Prop
  | .temp a => 1 ≤ a ∧ a ≤ t
  | .lvalue lv => lv.Between t
  | .temps ts => ∀ a ∈ ts, 1 ≤ a ∧ a ≤ t

theorem Place.Between.mono {t t' : Nat} {place : Place} (between : place.Between t)
    (le : t ≤ t') : place.Between t' := by
  cases place with
  | temp a => exact ⟨between.1, Nat.le_trans between.2 le⟩
  | lvalue lv => exact LValue.Between.mono between le
  | temps ts => exact fun a member => ⟨(between a member).1, Nat.le_trans (between a member).2 le⟩

/-- The code writes the temporaries after `t` up to `t'`, each once and in this
order, and mentions no others but those up to `t`. -/
structure TempsUsed (t t' : Nat) (nodes : List IrNode) : Prop where
  le : t ≤ t'
  dests_eq : dests nodes = List.range' (t + 1) (t' - t)
  mentions : MentionsUpTo t' nodes

namespace TempsUsed

variable {t middle t' : Nat} {first second : List IrNode} {node : IrNode}

theorem nil : TempsUsed t t [] := ⟨Nat.le_refl t, by simp [dests], .nil⟩

theorem append (left : TempsUsed t middle first) (right : TempsUsed middle t' second) :
    TempsUsed t t' (first ++ second) where
  le := Nat.le_trans left.le right.le
  dests_eq := by
    have low := left.le
    have high := right.le
    have start : middle + 1 = t + 1 + (middle - t) := by omega
    have total : t' - t = (middle - t) + (t' - middle) := by omega
    rw [dests_append, left.dests_eq, right.dests_eq, start, total, List.range'_append_1]
  mentions := (left.mentions.mono right.le).append right.mentions

theorem write (dest : node.dest? = some (t + 1))
    (reads : ∀ i ∈ node.reads, 1 ≤ i ∧ i ≤ t) : TempsUsed t (t + 1) [node] where
  le := Nat.le_succ t
  dests_eq := by simp [dests, dest]
  mentions := by
    refine .cons (fun i mention => ?_) .nil
    rw [IrNode.mentions, dest] at mention
    obtain member | member := List.mem_append.mp mention
    · simp only [Option.toList_some, List.mem_singleton] at member
      omega
    · exact ⟨(reads i member).1, Nat.le_succ_of_le (reads i member).2⟩

theorem keep (dest : node.dest? = none) (reads : ∀ i ∈ node.reads, 1 ≤ i ∧ i ≤ t) :
    TempsUsed t t [node] where
  le := Nat.le_refl t
  dests_eq := by simp [dests, dest]
  mentions := by
    refine .cons (fun i mention => reads i ?_) .nil
    rw [IrNode.mentions, dest] at mention
    simpa using mention

theorem count_dests (used : TempsUsed t t' first) (d : Nat) :
    (dests first).count d = if t < d ∧ d ≤ t' then 1 else 0 := by
  have le := used.le
  have window : t + 1 ≤ d ∧ d < t + 1 + (t' - t) ↔ t < d ∧ d ≤ t' := by omega
  rw [used.dests_eq, List.count_range_1']
  simp only [window]

end TempsUsed

section Expressions

variable {t : Nat} {lv : LValue}

private theorem tempsUsed_loadNode (between : lv.Between t) :
    TempsUsed t (t + 1) [lv.loadNode (t + 1)] := by
  cases lv with
  | global name => exact .write rfl nofun
  | local_ addrTemp =>
      refine .write rfl fun i member => ?_
      obtain rfl := List.mem_singleton.mp member
      exact between

private theorem tempsUsed_addrNode (between : lv.Between t) :
    TempsUsed t (t + 1) [lv.addrNode (t + 1)] := by
  cases lv with
  | global name => exact .write rfl nofun
  | local_ addrTemp =>
      refine .write rfl fun i member => ?_
      obtain rfl := List.mem_singleton.mp member
      exact between

private theorem tempsUsed_storeNode {a : Nat} (between : lv.Between t) (value : 1 ≤ a ∧ a ≤ t) :
    TempsUsed t t [lv.storeNode a] := by
  cases lv with
  | global name => exact .keep rfl (by simpa [LValue.storeNode, IrNode.reads] using value)
  | local_ addrTemp =>
      refine .keep rfl fun i member => ?_
      simp only [LValue.storeNode, IrNode.reads, List.mem_cons, List.not_mem_nil, or_false] at member
      obtain rfl | rfl := member
      · exact between
      · exact value

private theorem tempsUsed_binary {op : TokenKind} {a b : Nat} (known : binopToIrop op ≠ .unset)
    (left : 1 ≤ a ∧ a ≤ t) (right : 1 ≤ b ∧ b ≤ t) :
    TempsUsed t (t + 1) [.operation (t + 1) (binopToIrop op) a b] := by
  have reads : ∀ i ∈ [a, b], 1 ≤ i ∧ i ≤ t := by simp [left, right]
  cases op <;> first | exact absurd rfl known | exact .write rfl reads

private theorem tempsUsed_step {op : TokenKind} (known : binopToIrop op ≠ .unset)
    (between : lv.Between t) :
    TempsUsed t (t + 3)
      [lv.loadNode (t + 1), .operation (t + 2) .const 0 0 1,
        .operation (t + 3) (binopToIrop op) (t + 1) (t + 2), lv.storeNode (t + 3)] := by
  have load := tempsUsed_loadNode between
  have one : TempsUsed (t + 1) (t + 2) [.operation (t + 2) .const 0 0 1] := .write rfl nofun
  have new := tempsUsed_binary (t := t + 2) known
    (show 1 ≤ t + 1 ∧ t + 1 ≤ t + 2 by omega) (show 1 ≤ t + 2 ∧ t + 2 ≤ t + 2 by omega)
  have store := tempsUsed_storeNode (between.mono (show t ≤ t + 3 by omega))
    (show 1 ≤ t + 3 ∧ t + 3 ≤ t + 3 by omega)
  exact load.append (one.append (new.append store))

/-- The code of an expression uses new temporaries, and so does its value. -/
theorem Lowers.tempsUsed {vars : Vars} {phrase : ExprPhrase} {t t' : Nat} {code : List IrNode}
    {place : Place} (lowered : Lowers vars phrase t code place t') (bounded : VarsUpTo t vars) :
    TempsUsed t t' code ∧ place.Between t' := by
  have last (t : Nat) : Place.Between (t + 1) (.temp (t + 1)) := ⟨Nat.le_add_left 1 t, Nat.le_refl _⟩
  induction lowered with
  | int | string => exact ⟨.write rfl nofun, last _⟩
  | identifier found => exact ⟨tempsUsed_loadNode (bounded _ _ found), last _⟩
  | addressOf _ ih =>
      obtain ⟨used, between⟩ := ih bounded
      exact ⟨used.append (tempsUsed_addrNode between), last _⟩
  | load _ ih =>
      obtain ⟨used, between⟩ := ih bounded
      exact ⟨used.append (tempsUsed_loadNode (show (LValue.local_ _).Between _ from between)), last _⟩
  | neg _ ih =>
      obtain ⟨used, between⟩ := ih bounded
      refine ⟨used.append (.write rfl fun i member => ?_), last _⟩
      obtain rfl := List.mem_singleton.mp member
      exact between
  | @not _ _ _ _ t' _ ih =>
      obtain ⟨used, between⟩ := ih bounded
      have zero : TempsUsed t' (t' + 1) [.operation (t' + 1) .const 0 0 0] := .write rfl nofun
      have known : binopToIrop .equal ≠ .unset := by decide
      have equal := tempsUsed_binary known (between.mono (Nat.le_succ t')) (last t')
      exact ⟨used.append (zero.append equal), last _⟩
  | inc _ ih =>
      obtain ⟨used, between⟩ := ih bounded
      have known : binopToIrop .add ≠ .unset := by decide
      exact ⟨used.append (tempsUsed_step known between), last _⟩
  | dec _ ih =>
      obtain ⟨used, between⟩ := ih bounded
      have known : binopToIrop .sub ≠ .unset := by decide
      exact ⟨used.append (tempsUsed_step known between), last _⟩
  | assign _ _ rightIH leftIH =>
      obtain ⟨right, value⟩ := rightIH bounded
      obtain ⟨left, between⟩ := leftIH (bounded.mono right.le)
      exact ⟨(right.append left).append (tempsUsed_storeNode between (value.mono left.le)),
        value.mono left.le⟩
  | binary _ known _ _ leftIH rightIH =>
      obtain ⟨left, a⟩ := leftIH bounded
      obtain ⟨right, b⟩ := rightIH (bounded.mono left.le)
      exact ⟨(left.append right).append (tempsUsed_binary known (a.mono right.le) b), last _⟩
  | call _ ih =>
      obtain ⟨used, between⟩ := ih bounded
      exact ⟨used.append (.write rfl between), last _⟩
  | lvIdentifier found => exact ⟨.nil, bounded _ _ found⟩
  | lvDeref _ ih => exact ih bounded
  | argsNil => exact ⟨.nil, nofun⟩
  | argsCons _ _ argIH argsIH =>
      obtain ⟨first, value⟩ := argIH bounded
      obtain ⟨rest, values⟩ := argsIH (bounded.mono first.le)
      refine ⟨first.append rest, fun i member => ?_⟩
      obtain rfl | member := List.mem_cons.mp member
      · exact value.mono rest.le
      · exact values i member

end Expressions

end Trident
