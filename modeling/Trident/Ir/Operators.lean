import Trident.Ir.Lowering
import Trident.Parser.Consumed

/-! Which of the expressions that the parser builds the generator accepts: all of its
operators are known there, except the prefix `+`. -/

set_option autoImplicit false

namespace Trident

open Foundation

/-- `lookup_symbol` finds a variable that has storage, or a global. -/
def HsHeap.Resolves (heap : HsHeap) : List Nat → CStr → Prop
  | [], _ => False
  | id :: parent, name =>
      match heap.sets id, name with
      | some table, some name =>
          match table.get name with
          | some info => (info.lvalue? (some name)).isSome
          | none => heap.Resolves parent (some name)
      | _, _ => False

/-- An identifier or a dereference. -/
def AstNode.IsPlace : AstNode → Prop
  | .atom kind _ _ => kind = .identifier
  | .unary op _ => op = .mul
  | _ => False

/-- The operators of prefix expressions that need an lvalue. -/
def needsPlace : TokenKind → Bool
  | .bitAnd | .inc | .dec => true
  | _ => false

mutual

/-- The atoms are names, numbers and strings, the names resolve, and what is
assigned to or has its address taken is an identifier or a dereference. -/
def AstNode.Fit (resolves : CStr → Prop) : AstNode → Prop
  | .atom kind value _ => isKindLiteral kind = true ∧ (kind = .identifier → resolves value)
  | .unary op operand => (needsPlace op = true → operand.IsPlace) ∧ operand.Fit resolves
  | .binary left op right =>
      (op = .assign → left.IsPlace) ∧ left.Fit resolves ∧ right.Fit resolves
  | .functionCall _ args => AllFit resolves args
  | _ => True
  termination_by structural node => node

def AllFit (resolves : CStr → Prop) : List AstNode → Prop
  | [] => True
  | node :: nodes => node.Fit resolves ∧ AllFit resolves nodes
  termination_by structural nodes => nodes

end

mutual

/-- No `+` stands in front of an operand. -/
def AstNode.NoUnaryPlus : AstNode → Prop
  | .unary op operand => op ≠ .add ∧ operand.NoUnaryPlus
  | .binary left _ right => left.NoUnaryPlus ∧ right.NoUnaryPlus
  | .functionCall _ args => NoneUnaryPlus args
  | _ => True
  termination_by structural node => node

def NoneUnaryPlus : List AstNode → Prop
  | [] => True
  | node :: nodes => node.NoUnaryPlus ∧ NoneUnaryPlus nodes
  termination_by structural nodes => nodes

end

mutual

/-- The node is one of an expression, with operators that the parser knows. -/
def AstNode.Expression : AstNode → Prop
  | .atom _ _ _ => True
  | .unary op operand => isUnaryOp op = true ∧ operand.Expression
  | .binary left op right => isBinaryOp op = true ∧ left.Expression ∧ right.Expression
  | .functionCall _ args => AllExpressions args
  | _ => False
  termination_by structural node => node

def AllExpressions : List AstNode → Prop
  | [] => True
  | node :: nodes => node.Expression ∧ AllExpressions nodes
  termination_by structural nodes => nodes

end

mutual

theorem ExprText.expression (text : ExprText) : text.tree.Expression := by
  match text with
  | .atom token => trivial
  | .index token _ inner _ =>
      exact ⟨rfl, rfl, ⟨rfl, inner.expression, trivial⟩, rfl, trivial⟩
  | .call name _ args _ => exact args.expressions
  | .unary op operand => exact ⟨op.2, operand.expression⟩
  | .paren _ inner _ => exact inner.expression
  | .binary left op right => exact ⟨op.2, left.expression, right.expression⟩
  termination_by structural text

theorem ArgsText.expressions (args : ArgsText) : AllExpressions args.trees := by
  match args with
  | .nil => trivial
  | .cons arg _ rest => exact ⟨arg.expression, rest.expressions⟩
  termination_by structural args

end

section Identifiers

variable {scope : List Nat} {name : CStr} {ir : Ir}

private theorem lookupSymbol_resolves (resolves : ir.heap.Resolves scope name) :
    ∃ id info, lookupSymbol scope name ir = .ok (some (id, info)) ir ∧ (info.lvalue? name).isSome := by
  induction scope with
  | nil => exact resolves.elim
  | cons id parent ih =>
      cases present : ir.heap.sets id with
      | none => simp [HsHeap.Resolves, present] at resolves
      | some table =>
          cases name with
          | none => simp [HsHeap.Resolves, present] at resolves
          | some name =>
              have read : readHashSet id (some name) ir = .ok (table.get name) ir := by
                rw [readHashSet, bind_run_of_ok (get_run _), present]
                rfl
              simp only [HsHeap.Resolves, present] at resolves
              rw [lookupSymbol, bind_run_of_ok read]
              cases entry : table.get name with
              | none =>
                  rw [entry] at resolves
                  exact ih resolves
              | some info =>
                  rw [entry] at resolves
                  exact ⟨id, info, rfl, resolves⟩

private theorem lookupOrDie_resolves (resolves : ir.heap.Resolves scope name) :
    ∃ info lv, lookupOrDie scope name ir = .ok info ir ∧ info.lvalue? name = some lv := by
  obtain ⟨id, info, looked, stored⟩ := lookupSymbol_resolves resolves
  obtain ⟨lv, found⟩ := Option.isSome_iff_exists.mp stored
  refine ⟨info, lv, ?_, found⟩
  rw [lookupOrDie, bind_run_of_ok looked]
  rfl

private theorem irIdentLvalue_resolves (resolves : ir.heap.Resolves scope name) :
    ∃ lv ir', irIdentLvalue scope name ir = .ok lv ir' := by
  obtain ⟨⟨kind, temp⟩, lv, looked, found⟩ := lookupOrDie_resolves resolves
  rw [irIdentLvalue, bind_run_of_ok looked]
  cases kind <;> simp [VarInfo.lvalue?] at found
  case autoVar | paramVar => exact ⟨.local_ temp, ir, by simp [found.1]⟩
  case globalVar => exact ⟨.global name, ir, rfl⟩

private theorem irIdentifier_resolves (resolves : ir.heap.Resolves scope name) :
    ∃ t ir', irIdentifier scope name ir = .ok t ir' := by
  obtain ⟨⟨kind, temp⟩, lv, looked, found⟩ := lookupOrDie_resolves resolves
  rw [irIdentifier, bind_run_of_ok looked]
  cases kind <;> simp [VarInfo.lvalue?] at found
  case autoVar | paramVar => exact ⟨_, _, by simp only [true_or, or_true, if_true, if_neg found.1]; rfl⟩
  case globalVar => exact ⟨_, _, rfl⟩

end Identifiers

section Lowered

variable {scope : List Nat} {ir ir' : Ir} {node : AstNode}

private theorem irExprF_heap {t : Nat} (accepted : irExprF node scope ir = .ok t ir') : ir'.heap = ir.heap := by
  obtain ⟨code, tempC, -, rfl⟩ := irExprF_lowers node accepted
  rfl

end Lowered

private theorem binopToIrop_known {op : TokenKind} (binary : isBinaryOp op = true) (other : op ≠ .assign) :
    binopToIrop op ≠ .unset := by
  cases op <;> first | exact absurd rfl other | exact absurd binary (by decide) | decide

private theorem isUnaryOp_cases {op : TokenKind} (unary : isUnaryOp op = true) :
    op = .not ∨ op = .add ∨ op = .sub ∨ op = .mul ∨ op = .inc ∨ op = .dec ∨ op = .bitAnd := by
  cases op <;> first | exact absurd unary (by decide) | simp

/-- What `++` and `--` do with their lvalue. -/
private theorem irStep_accepts (lv : LValue) (ir : Ir) (op : IrOp) :
    ∃ nv ir', (do
      let old ← irLoadLvalue lv
      let one ← emitConst .const 1
      let nv ← emitOp op old one
      irStoreLvalue nv lv
      return nv : IrM Nat) ir = .ok nv ir' := by
  cases lv <;> exact ⟨_, _, rfl⟩

mutual

private theorem irExprF_accepts (node : AstNode) {scope : List Nat} {ir : Ir} (known : node.Expression)
    (fit : node.Fit (ir.heap.Resolves scope)) (plain : node.NoUnaryPlus) :
    ∃ t ir', irExprF node scope ir = .ok t ir' := by
  match node with
  | .atom kind value n =>
      cases kind
      case int | string => exact ⟨_, _, rfl⟩
      case identifier => exact irIdentifier_resolves (fit.2 rfl)
      all_goals exact absurd fit.1 (by decide)
  | .unary op operand =>
      obtain ⟨unary, known⟩ := known
      obtain ⟨place, fit⟩ := fit
      obtain ⟨other, plain⟩ := plain
      rcases isUnaryOp_cases unary with rfl | rfl | rfl | rfl | rfl | rfl | rfl
      · obtain ⟨t, ir', lowered⟩ := irExprF_accepts operand known fit plain
        exact ⟨_, _, bind_run_of_ok lowered⟩
      · exact absurd rfl other
      · obtain ⟨t, ir', lowered⟩ := irExprF_accepts operand known fit plain
        exact ⟨_, _, bind_run_of_ok lowered⟩
      · obtain ⟨t, ir', lowered⟩ := irExprF_accepts operand known fit plain
        exact ⟨_, _, bind_run_of_ok lowered⟩
      · obtain ⟨lv, ir', lowered⟩ := irLvalue_accepts operand known fit plain (place rfl)
        obtain ⟨nv, final, stepped⟩ := irStep_accepts lv ir' .add
        exact ⟨nv, final, (bind_run_of_ok lowered).trans stepped⟩
      · obtain ⟨lv, ir', lowered⟩ := irLvalue_accepts operand known fit plain (place rfl)
        obtain ⟨nv, final, stepped⟩ := irStep_accepts lv ir' .sub
        exact ⟨nv, final, (bind_run_of_ok lowered).trans stepped⟩
      · obtain ⟨lv, ir', lowered⟩ := irLvalue_accepts operand known fit plain (place rfl)
        exact ⟨_, _, (bind_run_of_ok lowered).trans (irAddrOfLvalue_run ir' lv)⟩
  | .binary left op right =>
      obtain ⟨binary, known, known'⟩ := known
      obtain ⟨place, fit, fit'⟩ := fit
      obtain ⟨plain, plain'⟩ := plain
      rw [irExprF]
      by_cases assign : op = .assign
      · obtain ⟨t, ir', lowered⟩ := irExprF_accepts right known' fit' plain'
        rw [← irExprF_heap lowered] at fit
        obtain ⟨lv, ir'', lowered'⟩ := irLvalue_accepts left known fit plain (place assign)
        rw [if_pos assign, bind_run_of_ok lowered, bind_run_of_ok lowered',
          bind_run_of_ok (irStoreLvalue_run _ _ _)]
        exact ⟨_, _, rfl⟩
      · obtain ⟨t, ir', lowered⟩ := irExprF_accepts left known fit plain
        rw [← irExprF_heap lowered] at fit'
        obtain ⟨t', ir'', lowered'⟩ := irExprF_accepts right known' fit' plain'
        rw [if_neg assign, if_neg (binopToIrop_known binary assign), bind_run_of_ok lowered,
          bind_run_of_ok lowered']
        exact ⟨_, _, rfl⟩
  | .functionCall name args =>
      obtain ⟨ts, ir', lowered⟩ := irArgs_accepts args known fit plain
      exact ⟨_, _, bind_run_of_ok lowered⟩
  | .expr _ | .scope _ _ | .function _ _ _ _ _ | .extrn _ | .auto _ _ | .if_ _ _ _
  | .elseIf _ _ _ | .else_ _ _ | .while_ _ _ | .return_ _ | .lable _ | .goto _
  | .global _ _ => exact known.elim
  termination_by structural node

private theorem irLvalue_accepts (node : AstNode) {scope : List Nat} {ir : Ir} (known : node.Expression)
    (fit : node.Fit (ir.heap.Resolves scope)) (plain : node.NoUnaryPlus) (place : node.IsPlace) :
    ∃ lv ir', irLvalue node scope ir = .ok lv ir' := by
  match node with
  | .atom kind value n =>
      have identifier : kind = .identifier := place
      subst identifier
      exact irIdentLvalue_resolves (fit.2 rfl)
  | .unary op operand =>
      obtain ⟨t, ir', lowered⟩ := irExprF_accepts operand known.2 fit.2 plain.2
      have deref : op = .mul := place
      subst deref
      exact ⟨_, _, bind_run_of_ok lowered⟩
  | .binary _ _ _ | .functionCall _ _ | .expr _ | .scope _ _ | .function _ _ _ _ _
  | .extrn _ | .auto _ _ | .if_ _ _ _ | .elseIf _ _ _ | .else_ _ _ | .while_ _ _
  | .return_ _ | .lable _ | .goto _ | .global _ _ => exact place.elim
  termination_by structural node

private theorem irArgs_accepts (nodes : List AstNode) {scope : List Nat} {ir : Ir}
    (known : AllExpressions nodes) (fit : AllFit (ir.heap.Resolves scope) nodes)
    (plain : NoneUnaryPlus nodes) : ∃ ts ir', irArgs nodes scope ir = .ok ts ir' := by
  match nodes with
  | [] => exact ⟨_, _, rfl⟩
  | node :: nodes =>
      obtain ⟨t, ir', lowered⟩ := irExprF_accepts node known.1 fit.1 plain.1
      have fit' := fit.2
      rw [← irExprF_heap lowered] at fit'
      obtain ⟨ts, ir'', lowered'⟩ := irArgs_accepts nodes known.2 fit' plain.2
      rw [irArgs, bind_run_of_ok lowered, bind_run_of_ok lowered']
      exact ⟨_, _, rfl⟩
  termination_by structural nodes

end

section Identifiers

variable {scope : List Nat} {name : CStr} {ir final : Ir}

private theorem resolves_of_lookupSymbol {id : Nat} {info : VarInfo}
    (looked : lookupSymbol scope name ir = .ok (some (id, info)) final)
    (stored : (info.lvalue? name).isSome) : ir.heap.Resolves scope name := by
  induction scope with
  | nil => cases looked
  | cons table parent ih =>
      rw [lookupSymbol] at looked
      obtain ⟨entry, middle, read, rest⟩ := bind_eq_ok.mp looked
      simp only [readHashSet, bind_run, get_run] at read
      cases present : ir.heap.sets table with
      | none => simp [present] at read
      | some entries =>
          cases name with
          | none => simp [present] at read
          | some name =>
              simp only [present, pure_run, EStateM.Result.ok.injEq] at read
              obtain ⟨rfl, rfl⟩ := read
              simp only [HsHeap.Resolves, present]
              cases found : entries.get name with
              | some info' =>
                  rw [found] at rest
                  cases rest
                  exact stored
              | none =>
                  rw [found] at rest
                  exact ih rest

private theorem resolves_of_lookupOrDie {info : VarInfo} (looked : lookupOrDie scope name ir = .ok info final)
    (stored : (info.lvalue? name).isSome) : ir.heap.Resolves scope name := by
  obtain ⟨found, middle, looked, rest⟩ := bind_eq_ok.mp looked
  cases found with
  | none => exact absurd rest irFatal_ne_ok
  | some entry =>
      cases rest
      exact resolves_of_lookupSymbol looked stored

private theorem resolves_of_irIdentLvalue {lv : LValue}
    (accepted : irIdentLvalue scope name ir = .ok lv final) : ir.heap.Resolves scope name := by
  obtain ⟨info, middle, looked, rest⟩ := bind_eq_ok.mp accepted
  obtain ⟨rfl, id, found⟩ := lookupOrDie_ok looked
  have value := (irIdentLvalue_ok accepted).1
  rw [lvalue?_of_lookup found] at value
  exact resolves_of_lookupOrDie looked (by simp [value])

private theorem resolves_of_irIdentifier {t : Nat} (accepted : irIdentifier scope name ir = .ok t final) :
    ir.heap.Resolves scope name := by
  obtain ⟨info, middle, looked, rest⟩ := bind_eq_ok.mp accepted
  obtain ⟨rfl, id, found⟩ := lookupOrDie_ok looked
  obtain ⟨lv, value, -⟩ := irIdentifier_ok accepted
  rw [lvalue?_of_lookup found] at value
  exact resolves_of_lookupOrDie looked (by simp [value])

end Identifiers

private theorem isBinaryOp_of_irop {op : TokenKind} (known : binopToIrop op ≠ .unset) :
    isBinaryOp op = true := by
  cases op <;> first | rfl | exact absurd rfl known

mutual

/-- What the generator accepts meets all that is asked of an expression. -/
private theorem irExprF_fit (node : AstNode) {scope : List Nat} {ir ir' : Ir} {t : Nat}
    (accepted : irExprF node scope ir = .ok t ir') :
    node.Expression ∧ node.Fit (ir.heap.Resolves scope) := by
  match node with
  | .atom kind value n =>
      refine ⟨trivial, ?_⟩
      cases kind
      case int | string => exact ⟨rfl, nofun⟩
      case identifier => exact ⟨rfl, fun _ => resolves_of_irIdentifier accepted⟩
      all_goals exact absurd accepted irFatal_ne_ok
  | .unary op operand =>
      cases op
      case bitAnd | inc | dec =>
        obtain ⟨lv, middle, lowered, -⟩ := bind_eq_ok.mp accepted
        obtain ⟨place, known, fit⟩ := irLvalue_fit operand lowered
        exact ⟨⟨rfl, known⟩, fun _ => place, fit⟩
      case mul | sub | not =>
        obtain ⟨a, middle, lowered, -⟩ := bind_eq_ok.mp accepted
        obtain ⟨known, fit⟩ := irExprF_fit operand lowered
        exact ⟨⟨rfl, known⟩, nofun, fit⟩
      all_goals exact absurd accepted irFatal_ne_ok
  | .binary left op right =>
      rw [irExprF] at accepted
      split at accepted
      case isTrue assign =>
        subst assign
        obtain ⟨a, middle, lowered, rest⟩ := bind_eq_ok.mp accepted
        obtain ⟨known', fit'⟩ := irExprF_fit right lowered
        obtain ⟨lv, final, lowered', -⟩ := bind_eq_ok.mp rest
        obtain ⟨place, known, fit⟩ := irLvalue_fit left lowered'
        rw [irExprF_heap lowered] at fit
        exact ⟨⟨rfl, known, known'⟩, fun _ => place, fit, fit'⟩
      case isFalse notAssign =>
        split at accepted
        case isTrue => exact absurd accepted irFatal_ne_ok
        case isFalse irop =>
          obtain ⟨a, middle, lowered, rest⟩ := bind_eq_ok.mp accepted
          obtain ⟨known, fit⟩ := irExprF_fit left lowered
          obtain ⟨b, final, lowered', -⟩ := bind_eq_ok.mp rest
          obtain ⟨known', fit'⟩ := irExprF_fit right lowered'
          rw [irExprF_heap lowered] at fit'
          exact ⟨⟨isBinaryOp_of_irop irop, known, known'⟩, fun assign => absurd assign notAssign, fit, fit'⟩
  | .functionCall name args =>
      obtain ⟨ts, middle, lowered, -⟩ := bind_eq_ok.mp accepted
      exact irArgs_fit args lowered
  | .expr _ | .scope _ _ | .function _ _ _ _ _ | .extrn _ | .auto _ _ | .if_ _ _ _
  | .elseIf _ _ _ | .else_ _ _ | .while_ _ _ | .return_ _ | .lable _ | .goto _
  | .global _ _ => exact absurd accepted irFatal_ne_ok
  termination_by structural node

private theorem irLvalue_fit (node : AstNode) {scope : List Nat} {ir ir' : Ir} {lv : LValue}
    (accepted : irLvalue node scope ir = .ok lv ir') :
    node.IsPlace ∧ node.Expression ∧ node.Fit (ir.heap.Resolves scope) := by
  match node with
  | .atom kind value n =>
      rw [irLvalue] at accepted
      split at accepted
      case isTrue identifier =>
        subst identifier
        exact ⟨rfl, trivial, rfl, fun _ => resolves_of_irIdentLvalue accepted⟩
      case isFalse => exact absurd accepted irFatal_ne_ok
  | .unary op operand =>
      rw [irLvalue] at accepted
      split at accepted
      case isTrue deref =>
        subst deref
        obtain ⟨a, middle, lowered, -⟩ := bind_eq_ok.mp accepted
        obtain ⟨known, fit⟩ := irExprF_fit operand lowered
        exact ⟨rfl, ⟨rfl, known⟩, nofun, fit⟩
      case isFalse => exact absurd accepted irFatal_ne_ok
  | .binary _ _ _ | .functionCall _ _ | .expr _ | .scope _ _ | .function _ _ _ _ _
  | .extrn _ | .auto _ _ | .if_ _ _ _ | .elseIf _ _ _ | .else_ _ _ | .while_ _ _
  | .return_ _ | .lable _ | .goto _ | .global _ _ => exact absurd accepted irFatal_ne_ok
  termination_by structural node

private theorem irArgs_fit (nodes : List AstNode) {scope : List Nat} {ir ir' : Ir} {ts : List Nat}
    (accepted : irArgs nodes scope ir = .ok ts ir') :
    AllExpressions nodes ∧ AllFit (ir.heap.Resolves scope) nodes := by
  match nodes with
  | [] => exact ⟨trivial, trivial⟩
  | node :: nodes =>
      obtain ⟨a, middle, lowered, rest⟩ := bind_eq_ok.mp accepted
      obtain ⟨known, fit⟩ := irExprF_fit node lowered
      obtain ⟨ts, final, lowered', -⟩ := bind_eq_ok.mp rest
      obtain ⟨known', fit'⟩ := irArgs_fit nodes lowered'
      rw [irExprF_heap lowered] at fit'
      exact ⟨⟨known, known'⟩, fit, fit'⟩
  termination_by structural nodes

end

def ExprPhrase.NoUnaryPlus : ExprPhrase → Prop
  | .expr node => node.NoUnaryPlus
  | .lvalue node => node.NoUnaryPlus
  | .args nodes => NoneUnaryPlus nodes

/-- The generator has no case for a prefix `+`. -/
theorem Lowers.noUnaryPlus {vars : CStr → Option LValue} {phrase : ExprPhrase} {t t' : Nat}
    {code : List IrNode} {place : Place} (lowered : Lowers vars phrase t code place t') :
    phrase.NoUnaryPlus := by
  induction lowered with
  | int | string | identifier | lvIdentifier | argsNil => trivial
  | addressOf _ ih | load _ ih | neg _ ih | not _ ih | inc _ ih | dec _ ih | lvDeref _ ih =>
      exact ⟨nofun, ih⟩
  | assign _ _ right left => exact ⟨left, right⟩
  | binary _ _ _ _ left right => exact ⟨left, right⟩
  | call _ ih => exact ih
  | argsCons _ _ first rest => exact ⟨first, rest⟩

/-- The value of an expression is left in a temporary, which is not the one of no value. -/
theorem Lowers.used {vars : CStr → Option LValue} {node : AstNode} {t t' a : Nat}
    {code : List IrNode} (lowered : Lowers vars (.expr node) t code (.temp a) t') : a ≠ 0 := by
  generalize phrase : ExprPhrase.expr node = whole at lowered
  generalize value : Place.temp a = place at lowered
  induction lowered generalizing node a with
  | assign _ _ right => exact right rfl value
  | lvIdentifier | lvDeref | argsNil | argsCons => cases phrase
  | _ =>
      cases value
      exact Nat.succ_ne_zero _

/-- The generator accepts the expression in the scope. -/
def AstNode.Accepted (node : AstNode) (scope : List Nat) (ir : Ir) : Prop :=
  ∃ t ir', irExprF node scope ir = .ok t ir'

/-- What the generator accepts, which it does whatever it has generated before. -/
theorem accepted_iff (node : AstNode) (scope : List Nat) (ir : Ir) :
    node.Accepted scope ir ↔
      node.Expression ∧ node.Fit (ir.heap.Resolves scope) ∧ node.NoUnaryPlus := by
  constructor
  · rintro ⟨t, ir', accepted⟩
    obtain ⟨known, fit⟩ := irExprF_fit node accepted
    obtain ⟨code, tempC, lowers, -⟩ := irExprF_lowers node accepted
    exact ⟨known, fit, lowers.noUnaryPlus⟩
  · rintro ⟨known, fit, plain⟩
    exact irExprF_accepts node known fit plain

/-- The generator returns a temporary for exactly the expressions without a prefix `+`. -/
theorem irExprF_accepts_iff {fuel : Nat} {prec : Precedence} {p p' : Parser} {tree : AstNode}
    {scope : List Nat} {ir : Ir} (built : parseExprF fuel prec p = .ok tree p')
    (fit : tree.Fit (ir.heap.Resolves scope)) :
    (∃ t ir', irExprF tree scope ir = .ok t ir' ∧ t ≠ 0) ↔ tree.NoUnaryPlus := by
  constructor
  · rintro ⟨t, ir', accepted, -⟩
    obtain ⟨code, tempC, lowers, -⟩ := irExprF_lowers tree accepted
    exact lowers.noUnaryPlus
  · intro plain
    obtain ⟨text, rfl, -⟩ := ((ExprText.sound fuel p).expr prec).of_ok built
    obtain ⟨t, ir', accepted⟩ := irExprF_accepts text.tree text.expression fit plain
    obtain ⟨code, tempC, lowers, -⟩ := irExprF_lowers text.tree accepted
    exact ⟨t, ir', accepted, lowers.used⟩

/-- A state in which `x` is a global. -/
def globalIr : Ir where
  heap := ⟨Function.update (fun _ => none) 0
    (some ⟨[([byte 'x'], { kind := .globalVar })]⟩), 1⟩

/-- `op x;` -/
def prefixTokens (op : TokenKind) : List Token := [markToken op, nameToken 'x', markToken .semicolon]

private theorem fit_signed {op : TokenKind} (value : needsPlace op = false) :
    (AstNode.unary op (nameToken 'x').atomNode).Fit (globalIr.heap.Resolves [0]) := by
  constructor
  · simp [value]
  · exact ⟨rfl, fun _ => rfl⟩

theorem irExprF_accepts_iff_neg :
    (∃ t ir', irExprF (.unary .sub (nameToken 'x').atomNode) [0] globalIr = .ok t ir' ∧ t ≠ 0) ↔
      (AstNode.unary .sub (nameToken 'x').atomNode).NoUnaryPlus := by
  have built : parseExprF 8 precNone ((initParser []).reading (prefixTokens .sub)) =
      .ok (.unary .sub (nameToken 'x').atomNode) ((initParser []).reading [markToken .semicolon]) := rfl
  exact irExprF_accepts_iff built (fit_signed rfl)

/-- `+x` is an expression for the parser, and fatal for the generator. -/
theorem irExprF_plus :
    parseExprF 8 precNone ((initParser []).reading (prefixTokens .add)) =
        .ok (.unary .add (nameToken 'x').atomNode) ((initParser []).reading [markToken .semicolon]) ∧
      (AstNode.unary .add (nameToken 'x').atomNode).Fit (globalIr.heap.Resolves [0]) ∧
      irExprF (.unary .add (nameToken 'x').atomNode) [0] globalIr =
        .error .exit { globalIr with stderr := [.unhandledUnary .add] } :=
  ⟨rfl, fit_signed rfl, rfl⟩

end Trident
