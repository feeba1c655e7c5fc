import Trident.Parser.Chains

/-! The grammar of B expressions, with its levels of operators, and the chains of
operands that the parser groups as the grammar does. -/

set_option autoImplicit false

namespace Trident

open Foundation

/-- The levels of the B grammar, the loosest one first. -/
def bLevel : TokenKind → ℕ
  | .bitOr => 1
  | .bitAnd => 2
  | .equal | .notEqual => 3
  | .lesser | .greater | .lesserEqual | .greaterEqual => 4
  | .bitshiftL | .bitshiftR => 5
  | .add | .sub => 6
  | .mul | .dev | .mod => 7
  | _ => 0

/-- The levels with equalities and comparisons on one level. -/
def sharedLevel (kind : TokenKind) : ℕ := if bLevel kind = 4 then 3 else bLevel kind

/-- A tree of operands joined by operators. Without assignments the tree is that of
the levels; the levels do not say how assignments are grouped. -/
structure BTree (first : AstNode) (rest : List (TokenKind × AstNode)) (tree : AstNode) : Prop where
  grouped : ∃ grouped : Grouped TokenKind AstNode,
    grouped.first = first ∧ grouped.rest = rest ∧ grouped.fold .binary = tree
  levels : (∀ next ∈ rest, next.1 ≠ .assign) → Derives bLevel .binary 1 first rest tree

mutual

/-- The trees of the grammar, in all operands of an expression. -/
def Primary.GrammarTree : Primary → AstNode → Prop
  | .atom token => fun tree => tree = token.1.atomNode
  | .index token _ inner _ => fun tree =>
      ∃ index, inner.GrammarTree index ∧ tree = indexNode token.1.atomNode index
  | .call name _ args _ => fun tree =>
      ∃ trees, args.GrammarTrees trees ∧ tree = .functionCall name.1.lexeme trees
  | .unary op operand => fun tree =>
      ∃ node, operand.GrammarTree node ∧ tree = .unary op.1.kind node
  | .paren _ inner _ => fun tree => inner.GrammarTree tree
  termination_by structural operand => operand

def Chain.GrammarTree : Chain → AstNode → Prop
  | .mk first rest => fun tree =>
      ∃ node trees, first.GrammarTree node ∧ rest.GrammarTrees trees ∧ BTree node trees tree
  termination_by structural chain => chain

def Rest.GrammarTrees : Rest → List (TokenKind × AstNode) → Prop
  | .nil => fun trees => trees = []
  | .cons op operand rest => fun trees =>
      ∃ node others, operand.GrammarTree node ∧ rest.GrammarTrees others ∧
        trees = (op.1.kind, node) :: others
  termination_by structural rest => rest

def Args.GrammarTrees : Args → List AstNode → Prop
  | .nil => fun trees => trees = []
  | .cons arg more => fun trees =>
      ∃ node others, arg.GrammarTree node ∧ more.GrammarTrees others ∧ trees = node :: others
  termination_by structural args => args

def MoreArgs.GrammarTrees : MoreArgs → List AstNode → Prop
  | .nil => fun trees => trees = []
  | .cons _ arg more => fun trees =>
      ∃ node others, arg.GrammarTree node ∧ more.GrammarTrees others ∧ trees = node :: others
  termination_by structural args => args

end

/-- The operators of a chain. -/
def Rest.ops : Rest → List TokenKind
  | .nil => []
  | .cons op _ rest => op.1.kind :: rest.ops

mutual

/-- In every chain without assignments, two operators of one level have a looser one
between them, where equalities and comparisons count as one level. -/
def Primary.Separated : Primary → Prop
  | .atom _ => True
  | .index _ _ inner _ => inner.Separated
  | .call _ _ args _ => args.Separated
  | .unary _ operand => operand.Separated
  | .paren _ inner _ => inner.Separated
  termination_by structural operand => operand

def Chain.Separated : Chain → Prop
  | .mk first rest => first.Separated ∧ rest.Separated ∧
      (.assign ∉ rest.ops → Foundation.Separated sharedLevel rest.ops)
  termination_by structural chain => chain

def Rest.Separated : Rest → Prop
  | .nil => True
  | .cons _ operand rest => operand.Separated ∧ rest.Separated
  termination_by structural rest => rest

def Args.Separated : Args → Prop
  | .nil => True
  | .cons arg more => arg.Separated ∧ more.Separated
  termination_by structural args => args

def MoreArgs.Separated : MoreArgs → Prop
  | .nil => True
  | .cons _ arg more => arg.Separated ∧ more.Separated
  termination_by structural args => args

end

section Levels

/-- The level of a precedence of the parser, given that of the comparisons. -/
def precLevel (relational : ℕ) (prec : ℤ) : ℕ :=
  if prec ≤ 2 then 0
  else if prec = 5 then relational
  else if prec = 6 then 3
  else (prec - 2).toNat

private theorem bLevel_eq (kind : TokenKind) : bLevel kind = precLevel 4 (getOpPrec kind) := by
  cases kind <;> rfl

private theorem sharedLevel_eq (kind : TokenKind) : sharedLevel kind = precLevel 3 (getOpPrec kind) := by
  cases kind <;> rfl

private theorem tighter_of_precLevel_lt {left right : ℤ} (looser : precLevel 3 left < precLevel 3 right) :
    max left 2 < max right 2 ∧ precLevel 4 left < precLevel 4 right := by
  unfold precLevel at looser ⊢
  constructor
  · split_ifs at looser <;> omega
  · split_ifs at looser ⊢ <;> omega

private theorem reversed_of_precLevel_eq {left right : ℤ} (same : precLevel 3 left = precLevel 3 right) :
    max left 2 ≤ max right 2 ↔ precLevel 4 right ≤ precLevel 4 left := by
  unfold precLevel at same ⊢
  split_ifs at same ⊢ <;> omega

/-- The precedence of an operator other than the assignment. -/
def opRank (kind : TokenKind) : ℤ := max (getOpPrec kind) precConditional

private theorem tighter_of_sharedLevel_lt (op next : TokenKind) (looser : sharedLevel op < sharedLevel next) :
    opRank op < opRank next ∧ bLevel op < bLevel next := by
  rw [sharedLevel_eq, sharedLevel_eq] at looser
  rw [bLevel_eq, bLevel_eq]
  exact tighter_of_precLevel_lt looser

private theorem reversed_of_sharedLevel_eq (op next : TokenKind) (same : sharedLevel op = sharedLevel next) :
    opRank op ≤ opRank next ↔ bLevel next ≤ bLevel op := by
  rw [sharedLevel_eq, sharedLevel_eq] at same
  rw [bLevel_eq, bLevel_eq]
  exact reversed_of_precLevel_eq same

private theorem one_le_bLevel {op : TokenKind} (binary : isBinaryOp op = true) (plain : op ≠ .assign) :
    1 ≤ bLevel op := by
  cases op <;> first | decide | exact absurd rfl plain | cases binary

/-- An operator other than the assignment takes those of its precedence to its right. -/
private theorem absorbs_eq {op next : TokenKind} (binary : isBinaryOp op = true) (plain : op ≠ .assign)
    (binary' : isBinaryOp next = true) (plain' : next ≠ .assign) :
    absorbs op next = decide (opRank op ≤ opRank next) := by
  have rank : ∀ {kind : TokenKind}, isBinaryOp kind = true → kind ≠ .assign →
      opRank kind = getOpPrec kind := by
    intro kind binary plain
    cases kind <;> first | decide | exact absurd rfl plain | cases binary
  have toRight : rightPrec op = getOpPrec op := by
    rw [rightPrec, isProcLeftAssociative, if_neg]
    cases op <;> first | decide | exact absurd rfl plain
  rw [absorbs, toRight, rank binary plain, rank binary' plain']

variable {first : AstNode} {rest : List (TokenKind × AstNode)}

private theorem group_absorbs (first : AstNode) (binary : ∀ next ∈ rest, isBinaryOp next.1 = true)
    (plain : ∀ next ∈ rest, next.1 ≠ .assign) :
    group absorbs first rest = rightGroup opRank first rest := by
  apply group_congr
  intro old member next member'
  exact absorbs_eq (binary old member) (plain old member) (binary next member') (plain next member')

end Levels

section Trees

private theorem binary_injective {left op right left' op' right'}
    (same : AstNode.binary left op right = .binary left' op' right') :
    left = left' ∧ right = right' := by
  injection same with lefts _ rights
  exact ⟨lefts, rights⟩

/-- The size that an operator adds to those of its operands. -/
def opWeight (_op : TokenKind) : Nat := 2

private theorem opWeight_pos (op : TokenKind) : 0 < opWeight op := Nat.two_pos

private theorem sizeOf_binary (left : AstNode) (op : TokenKind) (right : AstNode) :
    sizeOf (AstNode.binary left op right) = sizeOf left + opWeight op + sizeOf right := by
  have enumerated : sizeOf op = 1 := by cases op <;> rfl
  rw [AstNode.binary.sizeOf_spec, opWeight, enumerated]
  omega

variable {first first' tree : AstNode} {rest rest' : List (TokenKind × AstNode)}

theorem BTree.sizeOf_eq (grammar : BTree first rest tree) :
    sizeOf tree = sizeOf first + shapeSize opWeight (shape sizeOf rest) := by
  obtain ⟨grouped, rfl, rfl, rfl⟩ := grammar.grouped
  exact size_fold sizeOf_binary grouped

private theorem sizeOf_climb (first : AstNode) (rest : List (TokenKind × AstNode)) :
    sizeOf (climb first rest) = sizeOf first + shapeSize opWeight (shape sizeOf rest) := by
  rw [climb, size_fold sizeOf_binary, first_group, rest_group]

private theorem climb_eq_leftGroup_iff (binary : ∀ next ∈ rest, isBinaryOp next.1 = true)
    (plain : ∀ next ∈ rest, next.1 ≠ .assign) :
    climb first rest = (leftGroup bLevel first rest).fold .binary ↔
      Separated sharedLevel (rest.map Prod.fst) := by
  rw [← rightGroup_eq_leftGroup_iff tighter_of_sharedLevel_lt reversed_of_sharedLevel_eq first rest,
    climb, group_absorbs first binary plain]
  constructor
  · exact fold_injective sizeOf_binary opWeight_pos binary_injective (by simp) (by simp)
  · exact congrArg _

/-- The parser's tree of some operands is one of the grammar, for operands of the same
sizes, exactly if these are the same operands and the operators are separated. -/
private theorem bTree_climb_iff (binary : ∀ next ∈ rest, isBinaryOp next.1 = true)
    (sizes : sizeOf first' = sizeOf first) (shapes : shape sizeOf rest' = shape sizeOf rest) :
    BTree first' rest' (climb first rest) ↔ first' = first ∧ rest' = rest ∧
      (.assign ∉ rest.map Prod.fst → Separated sharedLevel (rest.map Prod.fst)) := by
  have plain : .assign ∉ rest.map Prod.fst ↔ ∀ next ∈ rest, next.1 ≠ .assign := by
    rw [← List.forall_mem_ne', List.forall_mem_map]
  constructor
  · intro grammar
    obtain ⟨grouped, rfl, rfl, same⟩ := grammar.grouped
    obtain rfl : grouped = group absorbs first rest :=
      fold_injective sizeOf_binary opWeight_pos binary_injective (by simpa using sizes)
        (by simpa using shapes) same
    have levels := grammar.levels
    rw [first_group, rest_group] at levels
    refine ⟨first_group .., rest_group .., fun noAssign => ?_⟩
    rw [← climb_eq_leftGroup_iff binary (plain.mp noAssign)]
    exact (levels (plain.mp noAssign)).eq_leftGroup
  · rintro ⟨rfl, rfl, separated⟩
    refine ⟨⟨group absorbs first' rest', first_group .., rest_group .., rfl⟩, fun noAssign => ?_⟩
    rw [(climb_eq_leftGroup_iff binary noAssign).mpr (separated (plain.mpr noAssign))]
    exact derives_leftGroup fun next member => one_le_bLevel (binary next member) (noAssign next member)

end Trees

theorem Rest.map_fst_trees (rest : Rest) : rest.trees.map Prod.fst = rest.ops := by
  cases rest with
  | nil => rfl
  | cons op operand rest =>
      rw [Rest.trees, Rest.ops, List.map_cons, rest.map_fst_trees]

theorem Rest.binary_trees (rest : Rest) : ∀ next ∈ rest.trees, isBinaryOp next.1 = true := by
  cases rest with
  | nil => exact List.forall_mem_nil _
  | cons op operand rest => exact List.forall_mem_cons.mpr ⟨op.2, rest.binary_trees⟩

mutual

/-- The parser's trees are as large as those of the grammar. -/
theorem Primary.GrammarTree.sizeOf_eq {operand : Primary} {tree : AstNode}
    (grammar : operand.GrammarTree tree) : sizeOf tree = sizeOf operand.tree := by
  match operand, grammar with
  | .atom token, grammar =>
      obtain rfl : tree = token.1.atomNode := grammar
      rfl
  | .index token _ inner _, grammar =>
      obtain ⟨index, below, rfl⟩ := grammar
      have same := below.sizeOf_eq
      simp [Primary.tree, indexNode, same]
  | .call name _ args _, grammar =>
      obtain ⟨trees, below, rfl⟩ := grammar
      have same := below.sizeOf_eq
      simp [Primary.tree, same]
  | .unary op operand, grammar =>
      obtain ⟨node, below, rfl⟩ := grammar
      have same := below.sizeOf_eq
      simp [Primary.tree, same]
  | .paren _ inner _, grammar =>
      have below : inner.GrammarTree tree := grammar
      exact below.sizeOf_eq
  termination_by structural operand

theorem Chain.GrammarTree.sizeOf_eq {chain : Chain} {tree : AstNode}
    (grammar : chain.GrammarTree tree) : sizeOf tree = sizeOf chain.tree := by
  match chain, grammar with
  | .mk first rest, grammar =>
      obtain ⟨node, trees, operand, others, grouped⟩ := grammar
      rw [Chain.tree, sizeOf_climb, grouped.sizeOf_eq, operand.sizeOf_eq, others.shape_eq]
  termination_by structural chain

theorem Rest.GrammarTrees.shape_eq {rest : Rest} {trees : List (TokenKind × AstNode)}
    (grammar : rest.GrammarTrees trees) : shape sizeOf trees = shape sizeOf rest.trees := by
  match rest, grammar with
  | .nil, grammar =>
      obtain rfl : trees = [] := grammar
      rfl
  | .cons op operand rest, grammar =>
      obtain ⟨node, others, first, more, rfl⟩ := grammar
      have same := more.shape_eq
      have head := first.sizeOf_eq
      unfold shape at same ⊢
      rw [Rest.trees, List.map_cons, List.map_cons, same, head]
  termination_by structural rest

theorem Args.GrammarTrees.sizeOf_eq {args : Args} {trees : List AstNode}
    (grammar : args.GrammarTrees trees) : sizeOf trees = sizeOf args.trees := by
  match args, grammar with
  | .nil, grammar =>
      obtain rfl : trees = [] := grammar
      rfl
  | .cons arg more, grammar =>
      obtain ⟨node, others, first, rest, rfl⟩ := grammar
      rw [Args.trees, List.cons.sizeOf_spec, List.cons.sizeOf_spec, first.sizeOf_eq, rest.sizeOf_eq]
  termination_by structural args

theorem MoreArgs.GrammarTrees.sizeOf_eq {more : MoreArgs} {trees : List AstNode}
    (grammar : more.GrammarTrees trees) : sizeOf trees = sizeOf more.trees := by
  match more, grammar with
  | .nil, grammar =>
      obtain rfl : trees = [] := grammar
      rfl
  | .cons _ arg more, grammar =>
      obtain ⟨node, others, first, rest, rfl⟩ := grammar
      rw [MoreArgs.trees, List.cons.sizeOf_spec, List.cons.sizeOf_spec, first.sizeOf_eq,
        rest.sizeOf_eq]
  termination_by structural more

end

section Indexes

variable {token : Token} {index index' : AstNode}

private theorem indexNode_injective (same : indexNode token.atomNode index = indexNode token.atomNode index') :
    index = index' := by
  injection same with _ address
  injection address with offset
  injection offset

end Indexes

mutual

/-- The parser's tree is one of the grammar if all chains are separated. -/
theorem Primary.grammarTree_iff (operand : Primary) :
    operand.GrammarTree operand.tree ↔ operand.Separated := by
  match operand with
  | .atom token => exact ⟨fun _ => trivial, fun _ => rfl⟩
  | .index token _ inner _ =>
      rw [Primary.Separated, ← inner.grammarTree_iff]
      constructor
      · rintro ⟨index, below, same⟩
        exact indexNode_injective same ▸ below
      · exact fun below => ⟨_, below, rfl⟩
  | .call name _ args _ =>
      rw [Primary.Separated, ← args.grammarTrees_iff]
      constructor
      · rintro ⟨trees, below, same⟩
        injection same with _ same
        exact same ▸ below
      · exact fun below => ⟨_, below, rfl⟩
  | .unary op operand =>
      rw [Primary.Separated, ← operand.grammarTree_iff]
      constructor
      · rintro ⟨node, below, same⟩
        injection same with _ same
        exact same ▸ below
      · exact fun below => ⟨_, below, rfl⟩
  | .paren _ inner _ => exact inner.grammarTree_iff
  termination_by structural operand

theorem Chain.grammarTree_iff (chain : Chain) : chain.GrammarTree chain.tree ↔ chain.Separated := by
  match chain with
  | .mk first rest =>
      rw [Chain.Separated, ← first.grammarTree_iff, ← rest.grammarTrees_iff, ← rest.map_fst_trees]
      constructor
      · rintro ⟨node, trees, operand, others, grouped⟩
        obtain ⟨rfl, rfl, separated⟩ :=
          (bTree_climb_iff rest.binary_trees operand.sizeOf_eq others.shape_eq).mp grouped
        exact ⟨operand, others, separated⟩
      · rintro ⟨operand, others, separated⟩
        exact ⟨_, _, operand, others,
          (bTree_climb_iff rest.binary_trees rfl rfl).mpr ⟨rfl, rfl, separated⟩⟩
  termination_by structural chain

theorem Rest.grammarTrees_iff (rest : Rest) : rest.GrammarTrees rest.trees ↔ rest.Separated := by
  match rest with
  | .nil => exact ⟨fun _ => trivial, fun _ => rfl⟩
  | .cons op operand rest =>
      rw [Rest.Separated, ← operand.grammarTree_iff, ← rest.grammarTrees_iff]
      constructor
      · rintro ⟨node, others, first, more, same⟩
        injection same with head tail
        injection head with _ head
        exact ⟨head ▸ first, tail ▸ more⟩
      · rintro ⟨first, more⟩
        exact ⟨_, _, first, more, rfl⟩
  termination_by structural rest

theorem Args.grammarTrees_iff (args : Args) : args.GrammarTrees args.trees ↔ args.Separated := by
  match args with
  | .nil => exact ⟨fun _ => trivial, fun _ => rfl⟩
  | .cons arg more =>
      rw [Args.Separated, ← arg.grammarTree_iff, ← more.grammarTrees_iff]
      constructor
      · rintro ⟨node, others, first, rest, same⟩
        injection same with head tail
        exact ⟨head ▸ first, tail ▸ rest⟩
      · rintro ⟨first, rest⟩
        exact ⟨_, _, first, rest, rfl⟩
  termination_by structural args

theorem MoreArgs.grammarTrees_iff (more : MoreArgs) :
    more.GrammarTrees more.trees ↔ more.Separated := by
  match more with
  | .nil => exact ⟨fun _ => trivial, fun _ => rfl⟩
  | .cons _ arg more =>
      rw [MoreArgs.Separated, ← arg.grammarTree_iff, ← more.grammarTrees_iff]
      constructor
      · rintro ⟨node, others, first, rest, same⟩
        injection same with head tail
        exact ⟨head ▸ first, tail ▸ rest⟩
      · rintro ⟨first, rest⟩
        exact ⟨_, _, first, rest, rfl⟩
  termination_by structural more

end

/-- The parser reads every chain, and builds the tree of the grammar exactly if the
operators of one level are separated by looser ones. -/
theorem parseExprF_grammar (chain : Chain) {fuel : Nat} {p : Parser} {closer : Token}
    {rest : List Token} (enough : 3 * chain.tokens.length + 1 ≤ fuel)
    (closes : closer.kind ∈ [TokenKind.semicolon, .cPren, .cBracket, .comma]) :
    ∃ tree, parseExprF fuel precNone (p.reading (chain.tokens ++ closer :: rest)) =
        .ok tree (p.reading (closer :: rest)) ∧
      (chain.GrammarTree tree ↔ chain.Separated) := by
  have ends : getOpPrec closer.kind = precNone := by
    simp only [List.mem_cons, List.not_mem_nil, or_false] at closes
    rcases closes with kind | kind | kind | kind <;> rw [kind] <;> rfl
  exact ⟨chain.tree, chain.parses fuel p closer rest enough ends, chain.grammarTree_iff⟩

/-- `a - b - c`. -/
def subChain : Chain :=
  .mk (.atom ⟨nameToken 'a', rfl⟩)
    (.cons ⟨markToken .sub, rfl⟩ (.atom ⟨nameToken 'b', rfl⟩)
      (.cons ⟨markToken .sub, rfl⟩ (.atom ⟨nameToken 'c', rfl⟩) .nil))

theorem parseExprF_grammar_sub :
    ∃ tree, parseExprF 16 precNone ((initParser []).reading
          (subChain.tokens ++ [markToken .semicolon])) =
        .ok tree ((initParser []).reading [markToken .semicolon]) ∧
      (subChain.GrammarTree tree ↔ subChain.Separated) :=
  parseExprF_grammar subChain (by decide) (by decide)

/-- The parser reads `a - b - c` as `a - (b - c)`. -/
theorem parseExprF_grouping_sub :
    ∃ tree, tree = .binary (nameToken 'a').atomNode .sub
          (.binary (nameToken 'b').atomNode .sub (nameToken 'c').atomNode) ∧
      parseExprF 16 precNone ((initParser []).reading
          (subChain.tokens ++ [markToken .semicolon])) =
        .ok tree ((initParser []).reading [markToken .semicolon]) ∧
      ¬ subChain.GrammarTree tree := by
  refine ⟨subChain.tree, rfl, subChain.parses 16 _ _ _ (by decide) rfl, ?_⟩
  rw [subChain.grammarTree_iff]
  rintro ⟨-, -, separated⟩
  obtain ⟨looser, member, -⟩ :=
    separated (by decide) .sub [] .sub (List.infix_refl [TokenKind.sub, .sub]) rfl
  exact List.not_mem_nil member

end Trident
