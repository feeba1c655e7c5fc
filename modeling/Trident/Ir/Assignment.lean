import Trident.Ir.Lowering
import Trident.Parser.Grouping

/-! Chains of assignments, `x1 = x2 = ... = e`. The parser groups them to the left,
and the generator takes no assignment for an lvalue. -/

set_option autoImplicit false

namespace Trident

open Foundation

/-- A target with the `=` behind it. -/
abbrev Target := Primary × Mark .assign

/-- What follows the first target of a chain. -/
def assignRest (eq : Mark .assign) : List Target → Chain → Rest
  | [], .mk first rest => .cons ⟨eq.1, eq.binaryOp isBinaryOp_assign⟩ first rest
  | (target, next) :: more, value =>
      .cons ⟨eq.1, eq.binaryOp isBinaryOp_assign⟩ target (assignRest next more value)

/-- `x1 = x2 = ... = e`, with the first target given apart. -/
def assignChain (first : Target) (more : List Target) (value : Chain) : Chain :=
  .mk first.1 (assignRest first.2 more value)

def targetTokens (targets : List Target) : List Token :=
  targets.flatMap fun target => target.1.tokens ++ [target.2.1]

private theorem tokens_assignRest (eq : Mark .assign) (more : List Target) (value : Chain) :
    (assignRest eq more value).tokens = eq.1 :: (targetTokens more ++ value.tokens) := by
  induction more generalizing eq with
  | nil =>
      obtain ⟨first, rest⟩ := value
      rfl
  | cons target more ih =>
      obtain ⟨operand, next⟩ := target
      rw [assignRest, Rest.tokens, ih next]
      simp [targetTokens]

private theorem tokens_assignChain (first : Target) (more : List Target) (value : Chain) :
    (assignChain first more value).tokens = targetTokens (first :: more) ++ value.tokens := by
  rw [assignChain, Chain.tokens, tokens_assignRest]
  simp [targetTokens]

private theorem trees_assignRest (eq : Mark .assign) (more : List Target) (value : Chain) :
    ∃ node rest, (assignRest eq more value).trees = (.assign, node) :: rest := by
  cases more with
  | nil =>
      obtain ⟨first, rest⟩ := value
      exact ⟨_, _, by rw [assignRest, Rest.trees, eq.2]⟩
  | cons target more => exact ⟨_, _, by rw [assignRest, Rest.trees, eq.2]⟩

/-- The generator does not accept the expression. -/
def AstNode.Rejected (node : AstNode) : Prop :=
  ∀ scope ir t ir', irExprF node scope ir ≠ .ok t ir'

private theorem rejected_assign_assign (left right value : AstNode) :
    (AstNode.binary (.binary left .assign right) .assign value).Rejected := by
  intro scope ir t ir' accepted
  rw [irExprF, if_pos rfl] at accepted
  obtain ⟨_, _, _, accepted⟩ := bind_eq_ok.mp accepted
  obtain ⟨_, _, lvalue, _⟩ := bind_eq_ok.mp accepted
  cases lvalue

private theorem eq_assign_of_not_absorbs {op : TokenKind} (binary : isBinaryOp op = true)
    (refused : absorbs .assign op = false) : op = .assign := by
  cases op <;> first | rfl | exact absurd refused (by decide) | cases binary

/-- Whatever follows, an assignment that is assigned to stays on the left. -/
private theorem rejected_climb {rest : List (TokenKind × AstNode)}
    (binary : ∀ next ∈ rest, isBinaryOp next.1 = true) (left right node : AstNode) :
    (climb (.binary left .assign right) ((.assign, node) :: rest)).Rejected := by
  induction size : rest.length using Nat.strong_induction_on generalizing left right node rest with
  | _ count ih =>
      rw [climb_cons]
      cases remaining : rest.dropWhile fun next => absorbs .assign next.1 with
      | nil => exact rejected_assign_assign left right _
      | cons next more =>
          obtain ⟨op, node'⟩ := next
          have shorter := List.dropWhile_sublist (fun next => absorbs .assign next.1) (l := rest)
          rw [remaining] at shorter
          have refused : absorbs .assign op = false := by
            have head := List.head?_dropWhile_not (fun next : TokenKind × AstNode =>
              absorbs .assign next.1) rest
            rw [remaining] at head
            simpa using head
          obtain rfl := eq_assign_of_not_absorbs (binary _ (shorter.subset List.mem_cons_self)) refused
          have fewer : more.length < count := by
            rw [← size]
            exact shorter.length_le
          exact ih more.length fewer
            (fun next member => binary next (shorter.subset (List.mem_cons_of_mem _ member))) _ _ _ rfl

private theorem rejected_assignChain (first second : Target) (more : List Target) (value : Chain) :
    (assignChain first (second :: more) value).tree.Rejected := by
  obtain ⟨node, rest, trees⟩ := trees_assignRest second.2 more value
  have binary := (assignRest second.2 more value).binary_trees
  have whole : (assignChain first (second :: more) value).tree =
      climb (.binary first.1.tree .assign second.1.tree) ((.assign, node) :: rest) := by
    rw [assignChain, Chain.tree, assignRest, Rest.trees, first.2.2, trees, climb_cons]
    rfl
  rw [trees] at binary
  rw [whole]
  exact rejected_climb (fun next member => binary next (List.mem_cons_of_mem _ member)) _ _ _

/-- The parser reads a chain of two or more assignments, and the generator rejects it
in every scope and state. -/
theorem assignChain_rejected (first second : Target) (more : List Target) (value : Chain)
    {fuel : Nat} {p : Parser} {semicolon : Token} {rest : List Token}
    (enough : 3 * (targetTokens (first :: second :: more) ++ value.tokens).length + 1 ≤ fuel)
    (ends : semicolon.kind = .semicolon) :
    ∃ tree, parseExprF fuel precNone
        (p.reading (targetTokens (first :: second :: more) ++ value.tokens ++ semicolon :: rest)) =
        .ok tree (p.reading (semicolon :: rest)) ∧
      ∀ scope ir t ir', irExprF tree scope ir ≠ .ok t ir' := by
  rw [← tokens_assignChain] at enough ⊢
  exact ⟨_, Chain.parses _ fuel p semicolon rest enough (by rw [ends]; rfl),
    rejected_assignChain first second more value⟩

def assignMark : Mark .assign := ⟨markToken .assign, rfl⟩

def nameTarget (letter : Char) : Target := (.atom ⟨nameToken letter, rfl⟩, assignMark)

/-- `0`. -/
def zeroChain : Chain := .mk (.atom ⟨⟨.int, some [byte '0'], 0, ⟨1, 1⟩⟩, rfl⟩) .nil

theorem assignChain_rejected_two :
    ∃ tree, parseExprF 16 precNone ((initParser []).reading
        (targetTokens [nameTarget 'i', nameTarget 'c'] ++ zeroChain.tokens ++
          [markToken .semicolon])) =
        .ok tree ((initParser []).reading [markToken .semicolon]) ∧
      ∀ scope ir t ir', irExprF tree scope ir ≠ .ok t ir' :=
  assignChain_rejected (nameTarget 'i') (nameTarget 'c') [] zeroChain (by decide) rfl

/-- A state in which the variables `i` and `c` have storage. -/
def storedIr : Ir where
  heap := ⟨Function.update (fun _ => none) 0
    (some ⟨[([byte 'i'], { kind := .autoVar, tempDest := 1 }),
      ([byte 'c'], { kind := .autoVar, tempDest := 2 })]⟩), 1⟩
  tempC := 2

/-- `i = c = 0` exits, although both variables have storage. -/
theorem assignChain_stored :
    ∃ tree, parseExprF 16 precNone ((initParser []).reading
        (targetTokens [nameTarget 'i', nameTarget 'c'] ++ zeroChain.tokens ++
          [markToken .semicolon])) =
        .ok tree ((initParser []).reading [markToken .semicolon]) ∧
      (∃ final, irExprF tree [0] storedIr = .error .exit final) ∧
      ∃ t final, irExprF (.binary (nameToken 'c').atomNode .assign zeroChain.tree) [0] storedIr =
        .ok t final :=
  ⟨_, rfl, ⟨_, rfl⟩, _, _, rfl⟩

end Trident
