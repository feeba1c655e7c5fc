import Mathlib.Algebra.Ring.Nat
import Mathlib.Data.List.Induction
import Mathlib.Data.List.TakeWhile
import Mathlib.Order.Lattice

/-! Operands joined by infix operators, and the trees that group them. A tree grows
at its right edge, operator by operator: `absorbs left right` says that an operator
`left` takes a later operator `right` into its right operand. -/

set_option autoImplicit false

namespace Foundation

universe u v

/-- A tree over operands and infix operators. -/
inductive Grouped (ω : Type u) (α : Type v) where
  | operand (value : α)
  | node (left : Grouped ω α) (op : ω) (right : Grouped ω α)

namespace Grouped

variable {ω : Type u} {α : Type v}

/-- The first operand, and the operators with the operands behind them. -/
def first : Grouped ω α → α
  | operand value => value
  | node left _ _ => left.first

def rest : Grouped ω α → List (ω × α)
  | operand _ => []
  | node left op right => left.rest ++ (op, right.first) :: right.rest

/-- The value of a tree, given what an operator makes of its operands. -/
def fold (combine : α → ω → α → α) : Grouped ω α → α
  | operand value => value
  | node left op right => combine (left.fold combine) op (right.fold combine)

/-- One more operator at the right edge. -/
def insert (absorbs : ω → ω → Bool) (next : ω) (value : α) : Grouped ω α → Grouped ω α
  | operand old => node (operand old) next (operand value)
  | node left op right =>
      if absorbs op next then node left op (right.insert absorbs next value)
      else node (node left op right) next (operand value)

variable {absorbs : ω → ω → Bool} {combine : α → ω → α → α}

@[simp] theorem first_insert (next : ω) (value : α) (tree : Grouped ω α) :
    (tree.insert absorbs next value).first = tree.first := by
  cases tree with
  | operand => rfl
  | node left op right =>
      rw [insert]
      split <;> rfl

@[simp] theorem rest_insert (next : ω) (value : α) (tree : Grouped ω α) :
    (tree.insert absorbs next value).rest = tree.rest ++ [(next, value)] := by
  induction tree with
  | operand => rfl
  | node left op right _ ih =>
      rw [insert]
      split
      · simp [rest, ih]
      · simp [rest, first]

theorem insert_of_closed {next : ω} (value : α) {tree : Grouped ω α}
    (closed : ∀ old ∈ tree.rest, absorbs old.1 next = false) :
    tree.insert absorbs next value = node tree next (operand value) := by
  cases tree with
  | operand => rfl
  | node left op right =>
      have refused : absorbs op next = false := closed (op, right.first) (by simp [rest])
      rw [insert, refused]
      rfl

theorem insert_congr {absorbs' : ω → ω → Bool} {next : ω} (value : α) {tree : Grouped ω α}
    (same : ∀ old ∈ tree.rest, absorbs old.1 next = absorbs' old.1 next) :
    tree.insert absorbs next value = tree.insert absorbs' next value := by
  induction tree with
  | operand => rfl
  | node left op right _ ih =>
      have root : absorbs op next = absorbs' op next := same (op, right.first) (by simp [rest])
      have edge := ih fun old member => same old (by simp [rest, member])
      rw [insert, insert, root, edge]

/-- More operators at the right edge, one after the other. -/
def insertAll (absorbs : ω → ω → Bool) (tree : Grouped ω α) (rest : List (ω × α)) : Grouped ω α :=
  rest.foldl (fun tree next => tree.insert absorbs next.1 next.2) tree

@[simp] theorem insertAll_nil (tree : Grouped ω α) : tree.insertAll absorbs [] = tree := rfl

@[simp] theorem insertAll_cons (tree : Grouped ω α) (next : ω × α) (rest : List (ω × α)) :
    tree.insertAll absorbs (next :: rest) =
      (tree.insert absorbs next.1 next.2).insertAll absorbs rest := rfl

theorem insertAll_concat (tree : Grouped ω α) (rest : List (ω × α)) (next : ω × α) :
    tree.insertAll absorbs (rest ++ [next]) =
      (tree.insertAll absorbs rest).insert absorbs next.1 next.2 := by
  simp [insertAll, List.foldl_append]

/-- Operators behind a node see its left operand by its value only. -/
theorem fold_insertAll_left {left left' right : Grouped ω α} {op : ω} (rest : List (ω × α))
    (same : left.fold combine = left'.fold combine) :
    ((node left op right).insertAll absorbs rest).fold combine =
      ((node left' op right).insertAll absorbs rest).fold combine := by
  induction rest generalizing left left' op right with
  | nil => simp only [insertAll_nil, fold, same]
  | cons next rest ih =>
      rw [insertAll_cons, insertAll_cons, insert, insert]
      split
      · exact ih same
      · apply ih
        simp only [fold, same]

/-- The operators that the root absorbs go into its right operand; the others see the
tree up to there as one operand. -/
theorem fold_insertAll_node (left right : Grouped ω α) (op : ω) (rest : List (ω × α)) :
    ((node left op right).insertAll absorbs rest).fold combine =
      ((operand (combine (left.fold combine) op
          ((right.insertAll absorbs (rest.takeWhile fun next => absorbs op next.1)).fold combine))
        ).insertAll absorbs (rest.dropWhile fun next => absorbs op next.1)).fold combine := by
  induction rest generalizing right with
  | nil => rfl
  | cons next rest ih =>
      rw [insertAll_cons, insert]
      cases absorbed : absorbs op next.1 with
      | true =>
          simp only [List.takeWhile_cons, List.dropWhile_cons, absorbed, if_true, insertAll_cons]
          exact ih _
      | false =>
          simp only [List.takeWhile_cons, List.dropWhile_cons, absorbed, Bool.false_eq_true, if_false,
            insertAll_cons]
          exact fold_insertAll_left rest rfl

end Grouped

variable {ω : Type u} {α : Type v}

/-- The tree of a first operand and the operators that follow it. -/
def group (absorbs : ω → ω → Bool) (first : α) (rest : List (ω × α)) : Grouped ω α :=
  (Grouped.operand first).insertAll absorbs rest

section Group

variable {absorbs : ω → ω → Bool} {combine : α → ω → α → α}

@[simp] theorem group_nil (first : α) : group absorbs first ([] : List (ω × α)) = .operand first := rfl

theorem group_concat (first : α) (rest : List (ω × α)) (next : ω × α) :
    group absorbs first (rest ++ [next]) = (group absorbs first rest).insert absorbs next.1 next.2 :=
  Grouped.insertAll_concat ..

@[simp] theorem first_group (first : α) (rest : List (ω × α)) :
    (group absorbs first rest).first = first := by
  induction rest using List.reverseRecOn with
  | nil => rfl
  | append_singleton rest next ih => rw [group_concat, Grouped.first_insert, ih]

@[simp] theorem rest_group (first : α) (rest : List (ω × α)) :
    (group absorbs first rest).rest = rest := by
  induction rest using List.reverseRecOn with
  | nil => rfl
  | append_singleton rest next ih => rw [group_concat, Grouped.rest_insert, ih]

theorem fold_group_cons (first value : α) (op : ω) (rest : List (ω × α)) :
    (group absorbs first ((op, value) :: rest)).fold combine =
      (group absorbs
        (combine first op
          ((group absorbs value (rest.takeWhile fun next => absorbs op next.1)).fold combine))
        (rest.dropWhile fun next => absorbs op next.1)).fold combine :=
  Grouped.fold_insertAll_node ..

/-- The root: an operator that none before it absorbs, and that absorbs those after it. -/
theorem group_root {first value : α} {before after : List (ω × α)} {op : ω}
    (closed : ∀ old ∈ before, absorbs old.1 op = false)
    (taken : ∀ next ∈ after, absorbs op next.1 = true) :
    group absorbs first (before ++ (op, value) :: after) =
      .node (group absorbs first before) op (group absorbs value after) := by
  induction after using List.reverseRecOn with
  | nil =>
      rw [group_concat]
      exact Grouped.insert_of_closed value (by rwa [rest_group])
  | append_singleton after next ih =>
      have earlier := ih fun old member => taken old (List.mem_append_left _ member)
      have absorbed : absorbs op next.1 = true := taken next (by simp)
      rw [← List.cons_append, ← List.append_assoc, group_concat, earlier, group_concat,
        Grouped.insert, if_pos absorbed]

theorem group_congr {absorbs' : ω → ω → Bool} (first : α) {rest : List (ω × α)}
    (same : ∀ old ∈ rest, ∀ next ∈ rest, absorbs old.1 next.1 = absorbs' old.1 next.1) :
    group absorbs first rest = group absorbs' first rest := by
  induction rest using List.reverseRecOn with
  | nil => rfl
  | append_singleton rest next ih =>
      have earlier : group absorbs first rest = group absorbs' first rest :=
        ih fun old member other member' =>
          same old (List.mem_append_left _ member) other (List.mem_append_left _ member')
      rw [group_concat, group_concat, earlier]
      apply Grouped.insert_congr
      intro old member
      rw [rest_group] at member
      exact same old (List.mem_append_left _ member) next (by simp)

end Group

section Fold

variable {combine : α → ω → α → α} {size : α → Nat} {weight : ω → Nat}

/-- Operators, and the sizes of their operands. -/
def shape (size : α → Nat) (rest : List (ω × α)) : List (ω × Nat) :=
  rest.map fun next => (next.1, size next.2)

def shapeSize (weight : ω → Nat) (rest : List (ω × Nat)) : Nat :=
  (rest.map fun next => weight next.1 + next.2).sum

theorem shapeSize_append (first second : List (ω × Nat)) :
    shapeSize weight (first ++ second) = shapeSize weight first + shapeSize weight second := by
  simp [shapeSize]

theorem shapeSize_eq_zero (positive : ∀ op, 0 < weight op) {rest : List (ω × Nat)}
    (zero : shapeSize weight rest = 0) : rest = [] := by
  cases rest with
  | nil => rfl
  | cons next rest =>
      have heavy := positive next.1
      simp only [shapeSize, List.map_cons, List.sum_cons] at zero
      omega

/-- Two beginnings of one list that have one size are the same. -/
theorem shape_prefix_eq (positive : ∀ op, 0 < weight op)
    {first second first' second' : List (ω × Nat)} (whole : first ++ second = first' ++ second')
    (sizes : shapeSize weight first = shapeSize weight first') : first = first' := by
  rcases List.append_eq_append_iff.mp whole with ⟨more, split, _⟩ | ⟨more, split, _⟩
  · rw [split, shapeSize_append] at sizes
    have empty : more = [] := shapeSize_eq_zero positive (by omega)
    rw [split, empty, List.append_nil]
  · rw [split, shapeSize_append] at sizes
    have empty : more = [] := shapeSize_eq_zero positive (by omega)
    rw [split, empty, List.append_nil]

theorem size_fold (sizes : ∀ left op right, size (combine left op right) =
      size left + weight op + size right) (tree : Grouped ω α) :
    size (tree.fold combine) = size tree.first + shapeSize weight (shape size tree.rest) := by
  induction tree with
  | operand => rfl
  | node left op right leftIH rightIH =>
      simp only [Grouped.fold, Grouped.first, Grouped.rest, sizes, leftIH, rightIH, shape, shapeSize,
        List.map_append, List.map_cons, List.sum_append, List.sum_cons]
      omega

/-- Two trees over the same operators, with operands of the same sizes, that have one
value are the same, where the value of a tree shows its root and the sizes add up. -/
theorem fold_injective (sizes : ∀ left op right, size (combine left op right) =
      size left + weight op + size right) (positive : ∀ op, 0 < weight op)
    (injective : ∀ {left op right left' op' right'},
      combine left op right = combine left' op' right' → left = left' ∧ right = right')
    {tree tree' : Grouped ω α} (first : size tree.first = size tree'.first)
    (rest : shape size tree.rest = shape size tree'.rest)
    (same : tree.fold combine = tree'.fold combine) : tree = tree' := by
  induction tree generalizing tree' with
  | operand value =>
      cases tree' with
      | operand => exact congrArg _ same
      | node left op right => simp [shape, Grouped.rest] at rest
  | node left op right leftIH rightIH =>
      cases tree' with
      | operand => simp [shape, Grouped.rest] at rest
      | node left' op' right' =>
          obtain ⟨leftSame, rightSame⟩ := injective same
          have whole : shape size left.rest ++ (op, size right.first) :: shape size right.rest =
              shape size left'.rest ++ (op', size right'.first) :: shape size right'.rest := by
            simpa [shape, Grouped.rest] using rest
          -- the parts on the left begin the same list and have one size
          have prefixes : shape size left.rest = shape size left'.rest := by
            have lengths := congrArg size leftSame
            rw [size_fold sizes, size_fold sizes,
              show size left.first = size left'.first from first] at lengths
            exact shape_prefix_eq positive whole (Nat.add_left_cancel lengths)
          rw [prefixes] at whole
          injection List.append_cancel_left whole with head tail
          injection head with ops firsts
          obtain rfl : left = left' := leftIH first prefixes leftSame
          rw [rightIH firsts tail rightSame, ops]

end Fold

section Levels

variable {κ : Type*} [LinearOrder κ]

/-- Operators of one level group to the left, or to the right. -/
def leftGroup (level : ω → κ) : α → List (ω × α) → Grouped ω α :=
  group fun op next => decide (level op < level next)

def rightGroup (level : ω → κ) : α → List (ω × α) → Grouped ω α :=
  group fun op next => decide (level op ≤ level next)

/-- The last one of the least elements of a list, and the first one. -/
theorem exists_lastLeast {β : Type*} (key : β → κ) {list : List β} (nonempty : list ≠ []) :
    ∃ before least after, list = before ++ least :: after ∧
      (∀ old ∈ before, key least ≤ key old) ∧ ∀ next ∈ after, key least < key next := by
  induction list using List.reverseRecOn with
  | nil => exact absurd rfl nonempty
  | append_singleton list last ih =>
      by_cases empty : list = []
      · exact ⟨[], last, [], by simp [empty], nofun, nofun⟩
      · obtain ⟨before, least, after, split, low, high⟩ := ih empty
        by_cases lower : key last ≤ key least
        · refine ⟨list, last, [], rfl, fun old member => ?_, nofun⟩
          rw [split] at member
          rcases List.mem_append.mp member with member | member
          · exact lower.trans (low old member)
          · rcases List.mem_cons.mp member with rfl | member
            · exact lower
            · exact lower.trans (high old member).le
        · refine ⟨before, least, after ++ [last], by simp [split], low, fun next member => ?_⟩
          rcases List.mem_append.mp member with member | member
          · exact high next member
          · rw [List.mem_singleton.mp member]
            exact not_le.mp lower

theorem exists_firstLeast {β : Type*} (key : β → κ) {list : List β} (nonempty : list ≠ []) :
    ∃ before least after, list = before ++ least :: after ∧
      (∀ old ∈ before, key least < key old) ∧ ∀ next ∈ after, key least ≤ key next := by
  have reversed : list.reverse ≠ [] := by simpa using nonempty
  obtain ⟨before, least, after, split, low, high⟩ := exists_lastLeast key reversed
  refine ⟨after.reverse, least, before.reverse, ?_, ?_, ?_⟩
  · simpa using congrArg List.reverse split
  · simpa using high
  · simpa using low

variable {first value : α} {before after rest : List (ω × α)} {op : ω}

@[simp] theorem first_leftGroup (level : ω → κ) : (leftGroup level first rest).first = first :=
  first_group ..

@[simp] theorem rest_leftGroup (level : ω → κ) : (leftGroup level first rest).rest = rest :=
  rest_group ..

@[simp] theorem first_rightGroup (level : ω → κ) : (rightGroup level first rest).first = first :=
  first_group ..

@[simp] theorem rest_rightGroup (level : ω → κ) : (rightGroup level first rest).rest = rest :=
  rest_group ..

theorem leftGroup_root (level : ω → κ) (low : ∀ old ∈ before, level op ≤ level old.1)
    (high : ∀ next ∈ after, level op < level next.1) :
    leftGroup level first (before ++ (op, value) :: after) =
      .node (leftGroup level first before) op (leftGroup level value after) :=
  group_root (fun old member => decide_eq_false (not_lt.mpr (low old member)))
    fun next member => decide_eq_true (high next member)

theorem rightGroup_root (level : ω → κ) (low : ∀ old ∈ before, level op < level old.1)
    (high : ∀ next ∈ after, level op ≤ level next.1) :
    rightGroup level first (before ++ (op, value) :: after) =
      .node (rightGroup level first before) op (rightGroup level value after) :=
  group_root (fun old member => decide_eq_false (not_le.mpr (low old member)))
    fun next member => decide_eq_true (high next member)

/-- Between any two operators of one level there is a looser one. -/
def Separated (level : ω → κ) (ops : List ω) : Prop :=
  ∀ op between next, op :: (between ++ [next]) <:+: ops → level op = level next →
    ∃ looser ∈ between, level looser < level op

theorem Separated.part {level : ω → κ} {part ops : List ω} (separated : Separated level ops)
    (inside : part <:+: ops) : Separated level part :=
  fun op between next chain => separated op between next (chain.trans inside)

/-- One operator that is looser than all others separates those before and after it. -/
theorem Separated.root {level : ω → κ} {before after : List ω}
    (low : ∀ old ∈ before, level op < level old) (high : ∀ next ∈ after, level op < level next)
    (left : Separated level before) (right : Separated level after) :
    Separated level (before ++ op :: after) := by
  intro old between next chain same
  have later : old :: (between ++ [next]) <+: op :: after →
      ∃ looser ∈ between, level looser < level old := by
    intro starts
    obtain ⟨rfl, tail⟩ := List.cons_prefix_cons.mp starts
    have lower := high next (tail.subset (List.mem_append_right _ List.mem_cons_self))
    exact absurd same lower.ne
  rcases List.infix_append_iff.mp chain with inside | inside | ⟨start, stop, split, suffix, starts⟩
  · exact left old between next inside same
  · rcases List.infix_cons_iff.mp inside with starts | inside
    · exact later starts
    · exact right old between next inside same
  · cases stop with
    | nil =>
        rw [List.append_nil] at split
        exact left old between next (split ▸ suffix.isInfix) same
    | cons root stop =>
        obtain ⟨rfl, _⟩ := List.cons_prefix_cons.mp starts
        cases start with
        | nil => exact later (split ▸ starts)
        | cons head start =>
            injection split with head_eq split
            have lower := low old (suffix.subset (by simp [head_eq]))
            -- the root stands at the end of the chain, or inside of it
            rcases List.eq_nil_or_concat stop with rfl | ⟨stop, last, rfl⟩
            · have last_eq := (List.append_inj' split rfl).2
              injection last_eq with last_eq
              rw [same, last_eq] at lower
              exact absurd lower (lt_irrefl _)
            · have whole : between ++ [next] = (start ++ root :: stop) ++ [last] := by
                simpa using split
              refine ⟨root, ?_, lower⟩
              rw [(List.append_inj' whole rfl).1]
              simp

theorem Separated.exists_root {level : ω → κ} {rest : List (ω × α)} (nonempty : rest ≠ [])
    (separated : Separated level (rest.map Prod.fst)) :
    ∃ before op value after, rest = before ++ (op, value) :: after ∧
      (∀ old ∈ before, level op < level old.1) ∧ ∀ next ∈ after, level op < level next.1 := by
  obtain ⟨before, ⟨op, value⟩, after, split, low, high⟩ :=
    exists_firstLeast (fun next : ω × α => level next.1) nonempty
  refine ⟨before, op, value, after, split, low, fun next member => ?_⟩
  refine lt_of_le_of_ne (high next member) fun same => ?_
  obtain ⟨between, more, rfl⟩ := List.append_of_mem member
  obtain ⟨looser, inside, lower⟩ := separated op (between.map Prod.fst) next.1
    ⟨before.map Prod.fst, more.map Prod.fst, by simp [split]⟩ same
  obtain ⟨between', member', rfl⟩ := List.mem_map.mp inside
  exact absurd lower (not_lt.mpr (high between' (by simp [member'])))

end Levels

section Grammar

variable (level : ω → ℕ) (combine : α → ω → α → α)

/-- The values of a grammar with levels of operators, the loosest one first: an
expression of level `k` is one of the next level, or one of level `k`, an operator of
that level, and one of the next level. -/
inductive Derives : ℕ → α → List (ω × α) → α → Prop where
  | operand {k value} : Derives k value [] value
  | next {k first rest value} : Derives (k + 1) first rest value → Derives k first rest value
  | binary {first before op second after left right} :
      Derives (level op) first before left → Derives (level op + 1) second after right →
      Derives (level op) first (before ++ (op, second) :: after) (combine left op right)

variable {level combine} {k : ℕ} {first value : α} {rest : List (ω × α)}

theorem Derives.level_le (derives : Derives level combine k first rest value) :
    ∀ next ∈ rest, k ≤ level next.1 := by
  induction derives with
  | operand => exact nofun
  | next _ ih => exact fun next member => Nat.le_of_succ_le (ih next member)
  | binary _ _ leftIH rightIH =>
      intro next member
      rcases List.mem_append.mp member with member | member
      · exact leftIH next member
      · rcases List.mem_cons.mp member with rfl | member
        · exact Nat.le_refl _
        · exact Nat.le_of_succ_le (rightIH next member)

/-- A grammar with levels derives one value. -/
theorem Derives.eq_leftGroup (derives : Derives level combine k first rest value) :
    value = (leftGroup level first rest).fold combine := by
  induction derives with
  | operand => rfl
  | next _ ih => exact ih
  | binary left right leftIH rightIH =>
      rw [leftGroup_root level left.level_le fun next member => right.level_le next member,
        Grouped.fold, ← leftIH, ← rightIH]

theorem Derives.mono {low : ℕ} (derives : Derives level combine k first rest value) (le : low ≤ k) :
    Derives level combine low first rest value := by
  induction le using Nat.decreasingInduction with
  | of_succ _ _ ih => exact .next ih
  | self => exact derives

theorem derives_leftGroup (above : ∀ next ∈ rest, k ≤ level next.1) :
    Derives level combine k first rest ((leftGroup level first rest).fold combine) := by
  induction size : rest.length using Nat.strong_induction_on generalizing k first rest with
  | _ count ih =>
      by_cases empty : rest = []
      · subst empty
        exact .operand
      · obtain ⟨before, ⟨op, second⟩, after, rfl, low, high⟩ :=
          exists_lastLeast (fun next : ω × α => level next.1) empty
        have lengths : before.length < count ∧ after.length < count := by
          rw [← size]
          simp
          omega
        rw [leftGroup_root level low high]
        exact (Derives.binary (ih _ lengths.1 low rfl) (ih _ lengths.2 high rfl)).mono
          (above (op, second) (by simp))

end Grammar

section Compare

variable {κ₁ κ₂ κ₃ : Type*} [LinearOrder κ₁] [LinearOrder κ₂] [LinearOrder κ₃]
variable {right : ω → κ₁} {left : ω → κ₂} {level : ω → κ₃}

/-- Two groupings, one to the right and one to the left, whose levels agree up to the
order within the classes of `level`, where they are reversed: the trees are the same
if and only if the operators of one class are separated by looser ones. -/
theorem rightGroup_eq_leftGroup_iff
    (tighter : ∀ op next, level op < level next → right op < right next ∧ left op < left next)
    (reversed : ∀ op next, level op = level next → (right op ≤ right next ↔ left next ≤ left op))
    (first : α) (rest : List (ω × α)) :
    rightGroup right first rest = leftGroup left first rest ↔
      Separated level (rest.map Prod.fst) := by
  induction size : rest.length using Nat.strong_induction_on generalizing first rest with
  | _ count ih =>
      by_cases empty : rest = []
      · subst empty
        refine ⟨fun _ => ?_, fun _ => rfl⟩
        rintro op between next ⟨before, after, whole⟩
        simp at whole
      constructor
      · intro same
        obtain ⟨before, ⟨op, value⟩, after, split, low, high⟩ :=
          exists_firstLeast (fun next : ω × α => right next.1) empty
        obtain ⟨before', ⟨op', value'⟩, after', split', low', high'⟩ :=
          exists_lastLeast (fun next : ω × α => left next.1) empty
        have roots : rightGroup right first (before ++ (op, value) :: after) =
            leftGroup left first (before' ++ (op', value') :: after') := by
          rw [← split, ← split', same]
        rw [rightGroup_root right low high, leftGroup_root left low' high'] at roots
        injection roots with lefts ops rights
        subst ops
        obtain rfl : before = before' := by simpa using congrArg Grouped.rest lefts
        obtain rfl : after = after' := by simpa using congrArg Grouped.rest rights
        subst split
        have lengths : before.length < count ∧ after.length < count := by
          rw [← size]
          simp
          omega
        have ordered : ∀ old : ω, ¬ level op < level old → right op < right old → ¬ left op ≤ left old := by
          intro old closer lower
          rcases lt_or_eq_of_le (not_lt.mp closer) with looser | same
          · exact absurd lower (tighter old op looser).1.not_gt
          · rw [← reversed old op same]
            exact lower.not_ge
        have ordered' : ∀ next : ω, ¬ level op < level next → right op ≤ right next →
            ¬ left op < left next := by
          intro next closer lower
          rcases lt_or_eq_of_le (not_lt.mp closer) with looser | same
          · exact absurd lower (tighter next op looser).1.not_ge
          · exact not_lt.mpr ((reversed op next same.symm).mp lower)
        rw [List.map_append, List.map_cons]
        refine Separated.root ?_ ?_ ((ih _ lengths.1 first before rfl).mp lefts)
          ((ih _ lengths.2 value after rfl).mp ?_)
        · intro _ member
          obtain ⟨old, inside, rfl⟩ := List.mem_map.mp member
          by_contra closer
          exact ordered old.1 closer (low old inside) (low' old inside)
        · intro _ member
          obtain ⟨next, inside, rfl⟩ := List.mem_map.mp member
          by_contra closer
          exact ordered' next.1 closer (high next inside) (high' next inside)
        · obtain rfl : value = value' := by simpa using congrArg Grouped.first rights
          exact rights
      · intro separated
        obtain ⟨before, op, value, after, rfl, low, high⟩ := separated.exists_root empty
        have lows : ∀ old ∈ before, right op < right old.1 ∧ left op < left old.1 :=
          fun old member => tighter op old.1 (low old member)
        have highs : ∀ next ∈ after, right op < right next.1 ∧ left op < left next.1 :=
          fun next member => tighter op next.1 (high next member)
        rw [List.map_append, List.map_cons] at separated
        have lengths : before.length < count ∧ after.length < count := by
          rw [← size]
          simp
          omega
        rw [rightGroup_root right (fun old member => (lows old member).1)
            (fun next member => (highs next member).1.le),
          leftGroup_root left (fun old member => (lows old member).2.le)
            (fun next member => (highs next member).2),
          (ih _ lengths.1 first before rfl).mpr (separated.part List.infix_append_left),
          (ih _ lengths.2 value after rfl).mpr
            (separated.part (List.infix_append_of_infix_right (List.infix_cons (List.infix_refl _))))]

end Compare

end Foundation
