import Trident.Ir.ExprCorrect
import Trident.Ir.Operators
import Trident.Parser.Grouping
import Trident.Source.Observed

/-! Indexing, `x[e]`, against the address arithmetic that it stands for,
`*(&x + (e) * 8)`. The parser builds different trees for the two. -/

set_option autoImplicit false

namespace Trident

open Foundation

variable {σ : Type}

/-- A name or a number as an operand. -/
def Mark.literal {kind : TokenKind} (literal : isKindLiteral kind = true) (mark : Mark kind) : Primary :=
  .atom ⟨mark.1, by rw [mark.2]; exact literal⟩

/-- The tokens of `*(&x + (e) * 8)` other than `x` and those of `e`. -/
structure AddressMarks where
  star : Mark .mul
  opened : Mark .oPren
  amp : Mark .bitAnd
  plus : Mark .add
  inner : Mark .oPren
  innerEnd : Mark .cPren
  times : Mark .mul
  eight : Mark .int
  value : eight.1.intLit = 8
  closed : Mark .cPren

/-- `x[e]` -/
def indexText (x : Mark .identifier) (opened : Mark .oBracket) (index : Chain)
    (closed : Mark .cBracket) : Primary :=
  .index ⟨x.1, by rw [x.2]; rfl⟩ opened index closed

/-- `*(&x + (e) * 8)` -/
def addressText (marks : AddressMarks) (x : Mark .identifier) (index : Chain) : Primary :=
  .unary ⟨marks.star.1, marks.star.unaryOp rfl⟩
    (.paren marks.opened
      (.mk (.unary ⟨marks.amp.1, marks.amp.unaryOp rfl⟩ (x.literal isKindLiteral_identifier))
        (.cons ⟨marks.plus.1, marks.plus.binaryOp rfl⟩ (.paren marks.inner index marks.innerEnd)
          (.cons ⟨marks.times.1, marks.times.binaryOp rfl⟩ (marks.eight.literal isKindLiteral_int) .nil)))
      marks.closed)

/-- The address that the parser makes of an index, and the one that is spelled out. -/
def indexAddress (x index : AstNode) : AstNode :=
  .binary (.binary index .mul (.atom .int none 8)) .add (.unary .bitAnd x)

def spelledAddress (x index eight : AstNode) : AstNode :=
  .binary (.unary .bitAnd x) .add (.binary index .mul eight)

private theorem tree_indexText (x : Mark .identifier) (opened : Mark .oBracket) (index : Chain)
    (closed : Mark .cBracket) :
    (indexText x opened index closed).tree = .unary .mul (indexAddress x.1.atomNode index.tree) := rfl

private theorem tree_addressText (marks : AddressMarks) (x : Mark .identifier) (index : Chain) :
    (addressText marks x index).tree =
      .unary .mul (spelledAddress x.1.atomNode index.tree marks.eight.1.atomNode) := by
  have grouped : climb (.unary .bitAnd x.1.atomNode)
      [(.add, index.tree), (.mul, marks.eight.1.atomNode)] =
        spelledAddress x.1.atomNode index.tree marks.eight.1.atomNode := by
    rw [climb_cons]
    rfl
  rw [addressText, Primary.tree, Primary.tree, Chain.tree, marks.star.2, ← grouped]
  simp only [Primary.tree, Rest.trees, marks.amp.2, marks.plus.2, marks.times.2, Mark.literal]

/-- What an indexed variable is used for: for its value, as the target of an
assignment, for `++` or `--`, or for its address. -/
inductive IndexContext where
  | value
  | target (eq : Mark .assign) (first : Primary) (rest : Rest) (plain : .assign ∉ rest.ops)
  | inc (op : Mark .inc)
  | dec (op : Mark .dec)
  | address (op : Mark .bitAnd)

namespace IndexContext

/-- The text of the context around an operand. -/
def fill (operand : Primary) : IndexContext → Chain
  | .value => .mk operand .nil
  | .target eq first rest _ => .mk operand (.cons ⟨eq.1, eq.binaryOp isBinaryOp_assign⟩ first rest)
  | .inc op => .mk (.unary ⟨op.1, op.unaryOp rfl⟩ operand) .nil
  | .dec op => .mk (.unary ⟨op.1, op.unaryOp rfl⟩ operand) .nil
  | .address op => .mk (.unary ⟨op.1, op.unaryOp rfl⟩ operand) .nil

/-- The tree of the context around that of an operand. -/
def node (operand : AstNode) : IndexContext → AstNode
  | .value => operand
  | .target _ first rest _ => .binary operand .assign (Chain.mk first rest).tree
  | .inc _ => .unary .inc operand
  | .dec _ => .unary .dec operand
  | .address _ => .unary .bitAnd operand

theorem absorbs_assign {op : TokenKind} (binary : isBinaryOp op = true) (plain : op ≠ .assign) :
    absorbs .assign op = true := by
  cases op <;> first | rfl | exact absurd rfl plain | exact absurd binary (by decide)

theorem tree_fill (context : IndexContext) (operand : Primary) :
    (context.fill operand).tree = context.node operand.tree := by
  cases context with
  | value => rfl
  | target eq first rest plain =>
      have all : ∀ next ∈ rest.trees, absorbs .assign next.1 = true := by
        intro next member
        apply absorbs_assign (rest.binary_trees next member)
        rintro same
        rw [← rest.map_fst_trees] at plain
        exact plain (same ▸ List.mem_map_of_mem member)
      rw [fill, Chain.tree, Rest.trees, eq.2, climb_cons, List.takeWhile_eq_self_iff.mpr all,
        List.dropWhile_eq_nil_iff.mpr all]
      rfl
  | inc op | dec op | address op =>
      change AstNode.unary op.1.kind operand.tree = _
      rw [op.2]
      rfl

/-- The generator accepts what is assigned. -/
def Accepted (scope : List Nat) (ir : Ir) : IndexContext → Prop
  | .target _ first rest _ => (Chain.mk first rest).tree.Accepted scope ir
  | _ => True

/-- The meaning of the context around the word with the number that `index` has,
counted from `base`: one evaluation of `index`, and one access. -/
def meaning (w : World σ) (env : Env) (base : Word) (index : AstNode) :
    IndexContext → StoreM σ Word
  | .value => do
      let i ← evalExpr w env index
      loadWord (base + i * 8)
  | .target _ first rest _ => do
      let value ← evalExpr w env (Chain.mk first rest).tree
      let i ← evalExpr w env index
      storeWord (base + i * 8) value
      return value
  | .inc _ => do
      let i ← evalExpr w env index
      stepWord .add (base + i * 8)
  | .dec _ => do
      let i ← evalExpr w env index
      stepWord .sub (base + i * 8)
  | .address _ => do
      let i ← evalExpr w env index
      return base + i * 8

end IndexContext

section Meaning

variable (w : World σ) (env : Env) (x : Mark .identifier) (index : AstNode)

/-- The node computes the address of the word that `index` counts from `x`. -/
abbrev Addresses (node : AstNode) : Prop :=
  AgreeOn (fun i addr => addr = env x.1.lexeme + i * 8) (evalExpr w env index) (evalExpr w env node)

private theorem bind_pure_agree {α β : Type} {related : α → β → Prop} {first : StoreM σ α} {second : StoreM σ β}
    (agrees : AgreeOn related (first >>= pure) second) : AgreeOn related first second := by
  rwa [bind_pure] at agrees

private theorem evalExpr_addressOf :
    evalExpr w env (.unary .bitAnd x.1.atomNode) = (compute (env x.1.lexeme) : StoreM σ Word) := by
  rw [Token.atomNode, x.2]
  rfl

private theorem evalExpr_eight (marks : AddressMarks) :
    evalExpr w env marks.eight.1.atomNode = (compute 8 : StoreM σ Word) := by
  rw [Token.atomNode, marks.eight.2, marks.value]
  rfl

private theorem addresses_indexAddress : Addresses w env x index (indexAddress x.1.atomNode index) := by
  apply bind_pure_agree
  rw [indexAddress, evalExpr_binary _ _ _ _ (by decide), evalExpr_binary _ _ _ _ (by decide),
    evalExpr_addressOf]
  simp only [bind_assoc, binaryValue]
  apply AgreeOn.bind (evalExpr_agrees w env index)
  rintro i _ rfl
  exact .compute (.compute (.compute (.compute_last (BitVec.add_comm _ _))))

private theorem addresses_spelledAddress (marks : AddressMarks) :
    Addresses w env x index (spelledAddress x.1.atomNode index marks.eight.1.atomNode) := by
  apply bind_pure_agree
  rw [spelledAddress, evalExpr_binary _ _ _ _ (by decide), evalExpr_binary _ _ _ _ (by decide),
    evalExpr_addressOf, evalExpr_eight]
  simp only [bind_assoc, binaryValue]
  apply AgreeOn.compute
  apply AgreeOn.bind (evalExpr_agrees w env index)
  rintro i _ rfl
  exact .compute (.compute (.compute_last rfl))

variable {w env x index}

/-- In each context, a dereference of the address means the access to the word. -/
theorem IndexContext.meaning_agrees (context : IndexContext) {node : AstNode}
    (addresses : Addresses w env x index node) :
    Agree (context.meaning w env (env x.1.lexeme) index)
      (evalExpr w env (context.node (.unary .mul node))) := by
  cases context with
  | value =>
      apply AgreeOn.bind addresses
      rintro i _ rfl
      exact Agree.loadWord _
  | target eq first rest plain =>
      rw [IndexContext.node, evalExpr_assign]
      apply Agree.bind (evalExpr_agrees w env _)
      intro value
      apply AgreeOn.bind addresses
      rintro i _ rfl
      exact Agree.bind (.storeWord _ _) fun _ => .pure _
  | inc op | dec op =>
      apply AgreeOn.bind addresses
      rintro i _ rfl
      exact Agree.stepWord _ _
  | address op =>
      apply AgreeOn.bind addresses
      rintro i _ rfl
      exact .compute_last rfl

end Meaning

section Acceptance

variable {scope : List Nat} {ir : Ir} {x : Mark .identifier} {index : AstNode}

theorem IndexContext.accepted_node (context : IndexContext) {node : AstNode}
    (context_ : context.Accepted scope ir) (address : node.Accepted scope ir) :
    (context.node (.unary .mul node)).Accepted scope ir := by
  rw [accepted_iff] at address ⊢
  obtain ⟨known, fit, plain⟩ := address
  have noPlace : needsPlace .mul = true → node.IsPlace := fun place => by cases place
  cases context with
  | value => exact ⟨⟨rfl, known⟩, ⟨noPlace, fit⟩, by decide, plain⟩
  | target eq first rest _ =>
      obtain ⟨known', fit', plain'⟩ := (accepted_iff ..).mp context_
      exact ⟨⟨rfl, ⟨rfl, known⟩, known'⟩, ⟨fun _ => rfl, ⟨noPlace, fit⟩, fit'⟩,
        ⟨by decide, plain⟩, plain'⟩
  | inc op | dec op | address op =>
      exact ⟨⟨rfl, rfl, known⟩, ⟨fun _ => rfl, noPlace, fit⟩, by decide, by decide, plain⟩

private theorem accepted_addressOf (resolves : ir.heap.Resolves scope x.1.lexeme) :
    (AstNode.unary .bitAnd x.1.atomNode).Accepted scope ir := by
  rw [accepted_iff, Token.atomNode, x.2]
  exact ⟨⟨rfl, trivial⟩, ⟨fun _ => rfl, rfl, fun _ => resolves⟩, by decide, trivial⟩

private theorem accepted_indexAddress (resolves : ir.heap.Resolves scope x.1.lexeme)
    (accepted : index.Accepted scope ir) : (indexAddress x.1.atomNode index).Accepted scope ir := by
  obtain ⟨known, fit, plain⟩ := (accepted_iff ..).mp accepted
  obtain ⟨known', fit', plain'⟩ := (accepted_iff ..).mp (accepted_addressOf resolves)
  have add : TokenKind.add ≠ .assign := by decide
  have mul : TokenKind.mul ≠ .assign := by decide
  have int : TokenKind.int ≠ .identifier := by decide
  rw [accepted_iff]
  exact ⟨⟨rfl, ⟨rfl, known, trivial⟩, known'⟩,
    ⟨(absurd · add), ⟨(absurd · mul), fit, rfl, (absurd · int)⟩, fit'⟩, ⟨plain, trivial⟩, plain'⟩

private theorem accepted_spelledAddress (marks : AddressMarks)
    (resolves : ir.heap.Resolves scope x.1.lexeme) (accepted : index.Accepted scope ir) :
    (spelledAddress x.1.atomNode index marks.eight.1.atomNode).Accepted scope ir := by
  obtain ⟨known, fit, plain⟩ := (accepted_iff ..).mp accepted
  obtain ⟨known', fit', plain'⟩ := (accepted_iff ..).mp (accepted_addressOf resolves)
  have add : TokenKind.add ≠ .assign := by decide
  have mul : TokenKind.mul ≠ .assign := by decide
  have int : TokenKind.int ≠ .identifier := by decide
  rw [accepted_iff, Token.atomNode, Token.atomNode, marks.eight.2]
  exact ⟨⟨rfl, known', rfl, known, trivial⟩,
    ⟨(absurd · add), fit', (absurd · mul), fit, rfl, (absurd · int)⟩, plain', plain, trivial⟩

end Acceptance

section Runs

/-- A run of IR code ends like a computation on the store, with the same value in the
temporary `t`. -/
def EndsLike (t : Nat) (reference : EStateM.Result Halt (Store σ) Word)
    (run : EStateM.Result Halt (IrState σ) Unit) : Prop :=
  match reference with
  | .ok value store => ∃ temps final, run = .ok () ⟨temps, final⟩ ∧ temps t = some value ∧
      store.Alike final
  | .error halt store => ∃ temps final, run = .error halt ⟨temps, final⟩ ∧ store.Alike final

/-- Two runs of IR code end alike, with the same words in the temporaries `t` and `t'`. -/
def EndAlike (t t' : Nat) (run run' : EStateM.Result Halt (IrState σ) Unit) : Prop :=
  match run, run' with
  | .ok _ final, .ok _ final' =>
      final.temps t = final'.temps t' ∧ final.store.Alike final'.store
  | .error halt final, .error halt' final' => halt = halt' ∧ final.store.Alike final'.store
  | _, _ => False

theorem EndsLike.alike {t t' : Nat} {reference : EStateM.Result Halt (Store σ) Word}
    {run run' : EStateM.Result Halt (IrState σ) Unit} (ends : EndsLike t reference run)
    (ends' : EndsLike t' reference run') : EndAlike t t' run run' := by
  cases reference with
  | ok value store =>
      obtain ⟨temps, final, rfl, held, alike⟩ := ends
      obtain ⟨temps', final', rfl, held', alike'⟩ := ends'
      exact ⟨held.trans held'.symm, alike.symm.trans alike'⟩
  | error halt store =>
      obtain ⟨temps, final, rfl, alike⟩ := ends
      obtain ⟨temps', final', rfl, alike'⟩ := ends'
      exact ⟨rfl, alike.symm.trans alike'⟩

variable {w : World σ} {scope : List Nat} {ir : Ir} {env : Env} {temps : Temps} {node : AstNode}

/-- The code of an accepted expression ends like whatever its evaluation agrees with. -/
private theorem accepted_endsLike (cell : Word) {reference : StoreM σ Word}
    (accepted : node.Accepted scope ir)
    (represents : Represents w (ir.heap.lvalue? scope) ir.tempC temps env)
    (agrees : Agree reference (evalExpr w env node)) (store : Store σ) :
    ∃ t code tempC, irExprF node scope ir = .ok t (ir.append code tempC) ∧
      EndsLike t (reference store) (execNodes w cell code ⟨temps, store⟩) := by
  obtain ⟨t, ir', accepted⟩ := accepted
  obtain ⟨code, same, run⟩ := irExprF_correct cell accepted represents store
  refine ⟨t, code, ir'.tempC, same ▸ accepted, ?_⟩
  have ended := agrees store store (.refl store)
  unfold EndsLike
  cases result : reference store with
  | ok value middle =>
      rw [result] at ended
      obtain ⟨_, final, evaluated, rfl, alike⟩ := ended
      rw [evaluated] at run
      obtain ⟨temps', ran, held, -⟩ := run
      exact ⟨temps', final, ran, held, alike⟩
  | error halt middle =>
      rw [result] at ended
      obtain excused | ⟨final, evaluated, alike⟩ := ended
      · exact excused.elim
      · rw [evaluated] at run
        obtain ⟨temps', ran⟩ := run
        exact ⟨temps', final, ran, alike⟩

end Runs

/-- `x[e]` and `*(&x + (e) * 8)` are compiled to code with the same result, memory
and calls in every context, and `e` is evaluated once in both. -/
theorem indexText_addressText (w : World σ) (cell : Word) (x : Mark .identifier)
    (opened : Mark .oBracket) (closed : Mark .cBracket) (marks : AddressMarks) (index : Chain)
    (context : IndexContext) {fuel : Nat} (p : Parser) (closer : Token) (rest : List Token)
    (enough : 3 * (context.fill (indexText x opened index closed)).tokens.length + 1 ≤ fuel)
    (enough' : 3 * (context.fill (addressText marks x index)).tokens.length + 1 ≤ fuel)
    (closes : getOpPrec closer.kind = precNone) :
    ∃ tree tree' : AstNode,
      parseExprF fuel precNone (p.reading
          ((context.fill (indexText x opened index closed)).tokens ++ closer :: rest)) =
        .ok tree (p.reading (closer :: rest)) ∧
      parseExprF fuel precNone (p.reading
          ((context.fill (addressText marks x index)).tokens ++ closer :: rest)) =
        .ok tree' (p.reading (closer :: rest)) ∧
      ∀ scope ir env temps (store : Store σ), ir.heap.Resolves scope x.1.lexeme →
        index.tree.Accepted scope ir → context.Accepted scope ir →
        Represents w (ir.heap.lvalue? scope) ir.tempC temps env →
        ∃ t t' code code' tempC tempC',
          irExprF tree scope ir = .ok t (ir.append code tempC) ∧
          irExprF tree' scope ir = .ok t' (ir.append code' tempC') ∧
          EndAlike t t' (execNodes w cell code ⟨temps, store⟩)
            (execNodes w cell code' ⟨temps, store⟩) ∧
          EndsLike t (context.meaning w env (env x.1.lexeme) index.tree store)
            (execNodes w cell code ⟨temps, store⟩) ∧
          EndsLike t' (context.meaning w env (env x.1.lexeme) index.tree store)
            (execNodes w cell code' ⟨temps, store⟩) := by
  refine ⟨_, _, Chain.parses _ fuel p closer rest enough closes,
    Chain.parses _ fuel p closer rest enough' closes, ?_⟩
  intro scope ir env temps store resolves accepted around represents
  rw [context.tree_fill, context.tree_fill, tree_indexText, tree_addressText]
  obtain ⟨t, code, tempC, compiled, ends⟩ := accepted_endsLike cell
    (context.accepted_node around (accepted_indexAddress resolves accepted)) represents
    (context.meaning_agrees (addresses_indexAddress w env x index.tree)) store
  obtain ⟨t', code', tempC', compiled', ends'⟩ := accepted_endsLike cell
    (context.accepted_node around (accepted_spelledAddress marks resolves accepted)) represents
    (context.meaning_agrees (addresses_spelledAddress w env x index.tree marks)) store
  exact ⟨t, t', code, code', tempC, tempC', compiled, compiled', ends.alike ends', ends, ends'⟩

def plainMarks : AddressMarks where
  star := ⟨markToken .mul, rfl⟩
  opened := ⟨markToken .oPren, rfl⟩
  amp := ⟨markToken .bitAnd, rfl⟩
  plus := ⟨markToken .add, rfl⟩
  inner := ⟨markToken .oPren, rfl⟩
  innerEnd := ⟨markToken .cPren, rfl⟩
  times := ⟨markToken .mul, rfl⟩
  eight := ⟨⟨.int, some [byte '8'], 8, ⟨1, 1⟩⟩, rfl⟩
  value := rfl
  closed := ⟨markToken .cPren, rfl⟩

/-- `2`. -/
def twoChain : Chain := .mk (.atom ⟨⟨.int, some [byte '2'], 2, ⟨1, 1⟩⟩, rfl⟩) .nil

def bareWorld : World Unit := ⟨fun _ => 64, fun _ => 0, fun _ _ _ _ => none⟩

private theorem represents_globalIr : Represents bareWorld (globalIr.heap.lvalue? [0]) globalIr.tempC
    (fun _ => none) fun _ => 64 := by
  intro name lv found
  have global : LValue.global name = lv := by
    cases name with
    | none => cases found
    | some name =>
        by_cases same : [byte 'x'] = cstr name <;>
          simp [HsHeap.lvalue?, HsHeap.lookup, Hs.get, VarInfo.lvalue?, globalIr, same] at found
        exact found
  subst global
  exact ⟨rfl, trivial⟩

/-- `++x[2]` -/
theorem indexText_addressText_inc :
    let context := IndexContext.inc ⟨markToken .inc, rfl⟩
    let bracketed := context.fill (indexText ⟨nameToken 'x', rfl⟩ ⟨markToken .oBracket, rfl⟩ twoChain
      ⟨markToken .cBracket, rfl⟩)
    let spelled := context.fill (addressText plainMarks ⟨nameToken 'x', rfl⟩ twoChain)
    ∃ tree tree' t t' code code' tempC tempC',
      parseExprF 64 precNone ((initParser []).reading (bracketed.tokens ++ [markToken .semicolon])) =
        .ok tree ((initParser []).reading [markToken .semicolon]) ∧
      parseExprF 64 precNone ((initParser []).reading (spelled.tokens ++ [markToken .semicolon])) =
        .ok tree' ((initParser []).reading [markToken .semicolon]) ∧
      irExprF tree [0] globalIr = .ok t (globalIr.append code tempC) ∧
      irExprF tree' [0] globalIr = .ok t' (globalIr.append code' tempC') ∧
      EndAlike t t' (execNodes bareWorld 0 code ⟨fun _ => none, ⟨fun _ => 6, (), []⟩⟩)
        (execNodes bareWorld 0 code' ⟨fun _ => none, ⟨fun _ => 6, (), []⟩⟩) := by
  intro context bracketed spelled
  obtain ⟨tree, tree', parsed, parsed', same⟩ := indexText_addressText bareWorld 0
    ⟨nameToken 'x', rfl⟩ ⟨markToken .oBracket, rfl⟩ ⟨markToken .cBracket, rfl⟩ plainMarks twoChain
    context (initParser []) (markToken .semicolon) []
    (show 3 * bracketed.tokens.length + 1 ≤ 64 by decide)
    (show 3 * spelled.tokens.length + 1 ≤ 64 by decide) rfl
  obtain ⟨t, t', code, code', tempC, tempC', compiled, compiled', alike, -⟩ := same [0] globalIr
    (fun _ => 64) (fun _ => none) ⟨fun _ => 6, (), []⟩ rfl ⟨_, _, rfl⟩ trivial represents_globalIr
  exact ⟨tree, tree', t, t', code, code', tempC, tempC', parsed, parsed', compiled, compiled', alike⟩

end Trident
