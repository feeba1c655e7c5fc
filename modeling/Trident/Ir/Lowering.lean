import Trident.Ir.Generate
import Trident.Foundation.StateResult

/-! What the lowering of an expression appends, as a relation that does not
mention the context it is appended to. `irExprF` and its companions succeed
exactly along this relation. -/

set_option autoImplicit false

namespace Trident

open Foundation

/-- The entry `lookup_symbol` finds, and the set it is in. -/
def HsHeap.lookup (heap : HsHeap) : List Nat → CStr → Option (Nat × VarInfo)
  | [], _ => none
  | id :: parent, name =>
      match (heap.sets id).bind fun table => name.bind table.get with
      | some info => some (id, info)
      | none => heap.lookup parent name

/-- The lvalue that an entry of a symbol table stands for. -/
def VarInfo.lvalue? (info : VarInfo) (name : CStr) : Option LValue :=
  match info.kind with
  | .autoVar | .paramVar => if info.tempDest = 0 then none else some (.local_ info.tempDest)
  | .globalVar => some (.global name)
  | .lableS => none

/-- The lvalue of an identifier in a scope, when it has one. -/
def HsHeap.lvalue? (heap : HsHeap) (scope : List Nat) (name : CStr) : Option LValue :=
  (heap.lookup scope name).bind fun found => found.2.lvalue? name

/-- Appending code to the current function; `tempC` is the last temporary of
that code. -/
def Ir.append (ir : Ir) (code : List IrNode) (tempC : Nat) : Ir :=
  { ir with nodes := ir.nodes ++ code, tempC }

@[simp] theorem Ir.append_nil (ir : Ir) : ir.append [] ir.tempC = ir := by
  simp [Ir.append]

@[simp] theorem Ir.append_append (ir : Ir) (first second : List IrNode) (middle last : Nat) :
    (ir.append first middle).append second last = ir.append (first ++ second) last := by
  simp [Ir.append]

@[simp] theorem Ir.append_tempC (ir : Ir) (code : List IrNode) (tempC : Nat) :
    (ir.append code tempC).tempC = tempC := rfl

@[simp] theorem Ir.append_heap (ir : Ir) (code : List IrNode) (tempC : Nat) :
    (ir.append code tempC).heap = ir.heap := rfl

section Emission

variable (ir : Ir)

theorem newLable_run : newLable ir = .ok (ir.lableC + 1) { ir with lableC := ir.lableC + 1 } := rfl

theorem addIrNode_run (node : IrNode) :
    addIrNode node ir = .ok () (ir.append [node] ir.tempC) := rfl

theorem emitOp_run (op : IrOp) (a b : Nat) :
    emitOp op a b ir =
      .ok (ir.tempC + 1) (ir.append [.operation (ir.tempC + 1) op a b] (ir.tempC + 1)) := rfl

theorem emitConst_run (kind : IrOp) (value : Nat) :
    emitConst kind value ir =
      .ok (ir.tempC + 1)
        (ir.append [.operation (ir.tempC + 1) kind 0 0 value] (ir.tempC + 1)) := rfl

theorem emitStore_run (value addr : Nat) :
    emitStore value addr ir =
      .ok () (ir.append [.operation 0 .store addr value] ir.tempC) := rfl

end Emission

/-- The node that loads an lvalue into temporary `t`. -/
def LValue.loadNode (t : Nat) : LValue → IrNode
  | .global name => .operation t .globalL 0 0 0 name
  | .local_ addrTemp => .operation t .load addrTemp 0

/-- The node that stores temporary `value` to an lvalue. -/
def LValue.storeNode (value : Nat) : LValue → IrNode
  | .global name => .operation 0 .globalS 0 value 0 name
  | .local_ addrTemp => .operation 0 .store addrTemp value

/-- The node that puts the address of an lvalue into temporary `t`. -/
def LValue.addrNode (t : Nat) : LValue → IrNode
  | .global name => .operation t .globalAddr 0 0 0 name
  | .local_ addrTemp => .operation t .address addrTemp 0

theorem irLoadLvalue_run (ir : Ir) (lv : LValue) :
    irLoadLvalue lv ir =
      .ok (ir.tempC + 1) (ir.append [lv.loadNode (ir.tempC + 1)] (ir.tempC + 1)) := by
  cases lv <;> rfl

theorem irStoreLvalue_run (ir : Ir) (value : Nat) (lv : LValue) :
    irStoreLvalue value lv ir = .ok () (ir.append [lv.storeNode value] ir.tempC) := by
  cases lv <;> rfl

theorem irAddrOfLvalue_run (ir : Ir) (lv : LValue) :
    irAddrOfLvalue lv ir =
      .ok (ir.tempC + 1) (ir.append [lv.addrNode (ir.tempC + 1)] (ir.tempC + 1)) := by
  cases lv <;> rfl

theorem irFatal_ne_ok {α : Type} {diag : Diag} {ir final : Ir} {result : α} :
    irFatal diag ir ≠ .ok result final := by
  intro accepted
  cases accepted

theorem lookupSymbol_ok {scope : List Nat} {name : CStr} {ir final : Ir}
    {found : Option (Nat × VarInfo)} (accepted : lookupSymbol scope name ir = .ok found final) :
    final = ir ∧ found = ir.heap.lookup scope name := by
  induction scope with
  | nil =>
      cases accepted
      exact ⟨rfl, rfl⟩
  | cons id parent ih =>
      rw [lookupSymbol, bind_eq_ok] at accepted
      obtain ⟨entry, middle, read, rest⟩ := accepted
      simp only [readHashSet, bind_run, get_run] at read
      cases table : ir.heap.sets id with
      | none => simp [table] at read
      | some table' =>
          cases name with
          | none => simp [table] at read
          | some name =>
              simp only [table, pure_run, EStateM.Result.ok.injEq] at read
              obtain ⟨rfl, rfl⟩ := read
              cases entry : table'.get name with
              | some info =>
                  simp only [entry, pure_run, EStateM.Result.ok.injEq] at rest
                  obtain ⟨rfl, rfl⟩ := rest
                  simp [HsHeap.lookup, table, entry]
              | none =>
                  simp only [entry] at rest
                  obtain ⟨same, value⟩ := ih rest
                  exact ⟨same, by simp [value, HsHeap.lookup, table, entry]⟩

/-- A lookup in sets that are alive finds the entry. -/
theorem lookupSymbol_run {scope : List Nat} {name : Name} {ir : Ir}
    (alive : ∀ id ∈ scope, (ir.heap.sets id).isSome) :
    lookupSymbol scope (some name) ir = .ok (ir.heap.lookup scope (some name)) ir := by
  induction scope with
  | nil => rfl
  | cons id parent ih =>
      obtain ⟨table, present⟩ := Option.isSome_iff_exists.mp (alive id List.mem_cons_self)
      have rest := ih fun id member => alive id (List.mem_cons_of_mem _ member)
      have read : readHashSet id (some name) ir = .ok (table.get name) ir := by
        rw [readHashSet, bind_run_of_ok (get_run _), present]
        rfl
      rw [lookupSymbol, bind_run_of_ok read, HsHeap.lookup, present]
      cases entry : table.get name with
      | some info => simp [entry]
      | none => simpa [entry] using rest

theorem lookupOrDie_ok {scope : List Nat} {name : CStr} {ir final : Ir} {info : VarInfo}
    (accepted : lookupOrDie scope name ir = .ok info final) :
    final = ir ∧ ∃ id, ir.heap.lookup scope name = some (id, info) := by
  rw [lookupOrDie, bind_eq_ok] at accepted
  obtain ⟨found, middle, looked, rest⟩ := accepted
  obtain ⟨rfl, value⟩ := lookupSymbol_ok looked
  cases found with
  | none => exact absurd rest irFatal_ne_ok
  | some entry =>
      obtain ⟨id, info'⟩ := entry
      cases rest
      exact ⟨rfl, id, value.symm⟩

/-- A lowered phrase: an expression, an lvalue, or the arguments of a call. -/
inductive ExprPhrase where
  | expr (node : AstNode)
  | lvalue (node : AstNode)
  | args (nodes : List AstNode)

/-- Where the lowered code leaves the value of a phrase. -/
inductive Place where
  | temp (t : Nat)
  | lvalue (lv : LValue)
  | temps (ts : List Nat)
  deriving DecidableEq, Repr

/-- `Lowers vars phrase t code place t'`: with the identifiers bound by `vars`
and `t` temporaries in use, `phrase` is lowered to `code`, its value is left at
`place`, and `t'` temporaries are in use afterwards. -/
inductive Lowers (vars : CStr → Option LValue) :
    ExprPhrase → Nat → List IrNode → Place → Nat → Prop where
  | int {value t n} :
      Lowers vars (.expr (.atom .int value n)) t [.operation (t + 1) .const 0 0 n]
        (.temp (t + 1)) (t + 1)
  | string {value t n} :
      Lowers vars (.expr (.atom .string value n)) t [.operation (t + 1) .data 0 0 n]
        (.temp (t + 1)) (t + 1)
  | identifier {name t n lv} :
      vars name = some lv →
      Lowers vars (.expr (.atom .identifier name n)) t [lv.loadNode (t + 1)]
        (.temp (t + 1)) (t + 1)
  | addressOf {operand t code lv t'} :
      Lowers vars (.lvalue operand) t code (.lvalue lv) t' →
      Lowers vars (.expr (.unary .bitAnd operand)) t (code ++ [lv.addrNode (t' + 1)])
        (.temp (t' + 1)) (t' + 1)
  | load {operand t code a t'} :
      Lowers vars (.expr operand) t code (.temp a) t' →
      Lowers vars (.expr (.unary .mul operand)) t (code ++ [.operation (t' + 1) .load a 0])
        (.temp (t' + 1)) (t' + 1)
  | neg {operand t code a t'} :
      Lowers vars (.expr operand) t code (.temp a) t' →
      Lowers vars (.expr (.unary .sub operand)) t (code ++ [.operation (t' + 1) .neg a 0])
        (.temp (t' + 1)) (t' + 1)
  | not {operand t code a t'} :
      Lowers vars (.expr operand) t code (.temp a) t' →
      Lowers vars (.expr (.unary .not operand)) t
        (code ++ [.operation (t' + 1) .const 0 0 0, .operation (t' + 2) .eq a (t' + 1)])
        (.temp (t' + 2)) (t' + 2)
  | inc {operand t code lv t'} :
      Lowers vars (.lvalue operand) t code (.lvalue lv) t' →
      Lowers vars (.expr (.unary .inc operand)) t
        (code ++ [lv.loadNode (t' + 1), .operation (t' + 2) .const 0 0 1,
          .operation (t' + 3) .add (t' + 1) (t' + 2), lv.storeNode (t' + 3)])
        (.temp (t' + 3)) (t' + 3)
  | dec {operand t code lv t'} :
      Lowers vars (.lvalue operand) t code (.lvalue lv) t' →
      Lowers vars (.expr (.unary .dec operand)) t
        (code ++ [lv.loadNode (t' + 1), .operation (t' + 2) .const 0 0 1,
          .operation (t' + 3) .sub (t' + 1) (t' + 2), lv.storeNode (t' + 3)])
        (.temp (t' + 3)) (t' + 3)
  | assign {left right t code a t' code' lv t''} :
      Lowers vars (.expr right) t code (.temp a) t' →
      Lowers vars (.lvalue left) t' code' (.lvalue lv) t'' →
      Lowers vars (.expr (.binary left .assign right)) t (code ++ code' ++ [lv.storeNode a])
        (.temp a) t''
  | binary {left op right t code a t' code' b t''} :
      op ≠ .assign → binopToIrop op ≠ .unset →
      Lowers vars (.expr left) t code (.temp a) t' →
      Lowers vars (.expr right) t' code' (.temp b) t'' →
      Lowers vars (.expr (.binary left op right)) t
        (code ++ code' ++ [.operation (t'' + 1) (binopToIrop op) a b])
        (.temp (t'' + 1)) (t'' + 1)
  | call {name args t code ts t'} :
      Lowers vars (.args args) t code (.temps ts) t' →
      Lowers vars (.expr (.functionCall name args)) t (code ++ [.call (t' + 1) name ts])
        (.temp (t' + 1)) (t' + 1)
  | lvIdentifier {name t n lv} :
      vars name = some lv →
      Lowers vars (.lvalue (.atom .identifier name n)) t [] (.lvalue lv) t
  | lvDeref {operand t code a t'} :
      Lowers vars (.expr operand) t code (.temp a) t' →
      Lowers vars (.lvalue (.unary .mul operand)) t code (.lvalue (.local_ a)) t'
  | argsNil {t} : Lowers vars (.args []) t [] (.temps []) t
  | argsCons {arg args t code a t' code' ts t''} :
      Lowers vars (.expr arg) t code (.temp a) t' →
      Lowers vars (.args args) t' code' (.temps ts) t'' →
      Lowers vars (.args (arg :: args)) t (code ++ code') (.temps (a :: ts)) t''

theorem lvalue?_of_lookup {heap : HsHeap} {scope : List Nat} {name : CStr} {id : Nat}
    {info : VarInfo} (found : heap.lookup scope name = some (id, info)) :
    heap.lvalue? scope name = info.lvalue? name := by
  simp [HsHeap.lvalue?, found]

theorem irIdentifier_ok {scope : List Nat} {name : CStr} {ir final : Ir} {t : Nat}
    (accepted : irIdentifier scope name ir = .ok t final) :
    ∃ lv, ir.heap.lvalue? scope name = some lv ∧ t = ir.tempC + 1 ∧
      final = ir.append [lv.loadNode (ir.tempC + 1)] (ir.tempC + 1) := by
  rw [irIdentifier, bind_eq_ok] at accepted
  obtain ⟨info, middle, found, rest⟩ := accepted
  obtain ⟨rfl, id, found⟩ := lookupOrDie_ok found
  rw [lvalue?_of_lookup found]
  obtain ⟨kind, temp⟩ := info
  cases kind <;> simp only [reduceCtorEq, or_false, or_true, if_true, if_false] at rest
  case autoVar | paramVar =>
    by_cases unset : temp = 0
    · rw [if_pos unset] at rest
      exact absurd rest irFatal_ne_ok
    · rw [if_neg unset, emitOp_run] at rest
      cases rest
      exact ⟨.local_ temp, by simp [VarInfo.lvalue?, unset], rfl, rfl⟩
  case globalVar =>
    cases rest
    exact ⟨.global name, rfl, rfl, rfl⟩
  case lableS => exact absurd rest irFatal_ne_ok

theorem irIdentLvalue_ok {scope : List Nat} {name : CStr} {ir final : Ir} {lv : LValue}
    (accepted : irIdentLvalue scope name ir = .ok lv final) :
    ir.heap.lvalue? scope name = some lv ∧ final = ir := by
  rw [irIdentLvalue, bind_eq_ok] at accepted
  obtain ⟨info, middle, found, rest⟩ := accepted
  obtain ⟨rfl, id, found⟩ := lookupOrDie_ok found
  rw [lvalue?_of_lookup found]
  obtain ⟨kind, temp⟩ := info
  cases kind <;> simp only [reduceCtorEq, or_false, or_true, if_true, if_false] at rest
  case autoVar | paramVar =>
    by_cases unset : temp = 0
    · rw [if_pos unset] at rest
      exact absurd rest irFatal_ne_ok
    · rw [if_neg unset] at rest
      cases rest
      exact ⟨by simp [VarInfo.lvalue?, unset], rfl⟩
  case globalVar =>
    cases rest
    exact ⟨rfl, rfl⟩
  case lableS => exact absurd rest irFatal_ne_ok

section Accepted

variable {scope : List Nat} {name : Name} {ir : Ir} {lv : LValue}

private theorem lookupOrDie_run {id : Nat} {info : VarInfo}
    (alive : ∀ id ∈ scope, (ir.heap.sets id).isSome)
    (found : ir.heap.lookup scope (some name) = some (id, info)) :
    lookupOrDie scope (some name) ir = .ok info ir := by
  rw [lookupOrDie, bind_run_of_ok (lookupSymbol_run alive), found]
  rfl

/-- An identifier with an lvalue is accepted in each position. -/
theorem irIdentLvalue_run (alive : ∀ id ∈ scope, (ir.heap.sets id).isSome)
    (found : ir.heap.lvalue? scope (some name) = some lv) :
    irIdentLvalue scope (some name) ir = .ok lv ir := by
  obtain ⟨⟨id, kind, temp⟩, looked, lvalue⟩ := Option.bind_eq_some_iff.mp found
  rw [irIdentLvalue, bind_run_of_ok (lookupOrDie_run alive looked)]
  cases kind <;> simp [VarInfo.lvalue?] at lvalue
  case autoVar | paramVar =>
    obtain ⟨set, rfl⟩ := lvalue
    simp [set]
  case globalVar =>
    cases lvalue
    rfl

theorem irIdentifier_run (alive : ∀ id ∈ scope, (ir.heap.sets id).isSome)
    (found : ir.heap.lvalue? scope (some name) = some lv) :
    irIdentifier scope (some name) ir =
      .ok (ir.tempC + 1) (ir.append [lv.loadNode (ir.tempC + 1)] (ir.tempC + 1)) := by
  obtain ⟨⟨id, kind, temp⟩, looked, lvalue⟩ := Option.bind_eq_some_iff.mp found
  rw [irIdentifier, bind_run_of_ok (lookupOrDie_run alive looked)]
  cases kind <;> simp [VarInfo.lvalue?] at lvalue
  case autoVar | paramVar =>
    obtain ⟨set, rfl⟩ := lvalue
    simp only [true_or, or_true, if_true, if_neg set]
    rfl
  case globalVar =>
    cases lvalue
    rfl

end Accepted

/-- The lowering of `phrase` in scope `scope` took the context `ir` to `final`
and left the value at `place`. -/
def LoweredTo (scope : List Nat) (phrase : ExprPhrase) (ir : Ir) (place : Place)
    (final : Ir) : Prop :=
  ∃ code tempC, Lowers (ir.heap.lvalue? scope) phrase ir.tempC code place tempC ∧
    final = ir.append code tempC

mutual

theorem irExprF_lowers (node : AstNode) {scope : List Nat} {ir final : Ir} {t : Nat}
    (accepted : irExprF node scope ir = .ok t final) :
    LoweredTo scope (.expr node) ir (.temp t) final := by
  match node with
  | .atom kind value n =>
      cases kind
      case int =>
        cases accepted
        exact ⟨_, _, .int, rfl⟩
      case string =>
        cases accepted
        exact ⟨_, _, .string, rfl⟩
      case identifier =>
        obtain ⟨lv, found, rfl, rfl⟩ := irIdentifier_ok accepted
        exact ⟨_, _, .identifier found, rfl⟩
      all_goals exact absurd accepted irFatal_ne_ok
  | .unary op operand =>
      cases op
      case bitAnd =>
        obtain ⟨lv, middle, lowered, rest⟩ := bind_eq_ok.mp accepted
        obtain ⟨code, tempC, operandLowers, rfl⟩ := irLvalue_lowers operand lowered
        rw [irAddrOfLvalue_run] at rest
        cases rest
        exact ⟨_, _, .addressOf operandLowers, by simp⟩
      case mul =>
        obtain ⟨a, middle, lowered, rest⟩ := bind_eq_ok.mp accepted
        obtain ⟨code, tempC, operandLowers, rfl⟩ := irExprF_lowers operand lowered
        cases rest
        exact ⟨_, _, .load operandLowers, by simp [Ir.append]⟩
      case sub =>
        obtain ⟨a, middle, lowered, rest⟩ := bind_eq_ok.mp accepted
        obtain ⟨code, tempC, operandLowers, rfl⟩ := irExprF_lowers operand lowered
        cases rest
        exact ⟨_, _, .neg operandLowers, by simp [Ir.append]⟩
      case not =>
        obtain ⟨a, middle, lowered, rest⟩ := bind_eq_ok.mp accepted
        obtain ⟨code, tempC, operandLowers, rfl⟩ := irExprF_lowers operand lowered
        cases rest
        exact ⟨_, _, .not operandLowers, by simp [Ir.append]⟩
      case inc =>
        obtain ⟨lv, middle, lowered, rest⟩ := bind_eq_ok.mp accepted
        obtain ⟨code, tempC, operandLowers, rfl⟩ := irLvalue_lowers operand lowered
        rw [bind_run_of_ok (irLoadLvalue_run _ _), bind_run_of_ok (emitConst_run _ _ _),
          bind_run_of_ok (emitOp_run _ _ _ _), bind_run_of_ok (irStoreLvalue_run _ _ _)] at rest
        cases rest
        exact ⟨_, _, .inc operandLowers, by simp⟩
      case dec =>
        obtain ⟨lv, middle, lowered, rest⟩ := bind_eq_ok.mp accepted
        obtain ⟨code, tempC, operandLowers, rfl⟩ := irLvalue_lowers operand lowered
        rw [bind_run_of_ok (irLoadLvalue_run _ _), bind_run_of_ok (emitConst_run _ _ _),
          bind_run_of_ok (emitOp_run _ _ _ _), bind_run_of_ok (irStoreLvalue_run _ _ _)] at rest
        cases rest
        exact ⟨_, _, .dec operandLowers, by simp⟩
      all_goals exact absurd accepted irFatal_ne_ok
  | .binary left op right =>
      rw [irExprF] at accepted
      split at accepted
      case isTrue assign =>
        subst assign
        obtain ⟨a, middle, lowered, rest⟩ := bind_eq_ok.mp accepted
        obtain ⟨code, tempC, rightLowers, rfl⟩ := irExprF_lowers right lowered
        obtain ⟨lv, final', lowered, rest⟩ := bind_eq_ok.mp rest
        obtain ⟨code', tempC', leftLowers, rfl⟩ := irLvalue_lowers left lowered
        rw [bind_run_of_ok (irStoreLvalue_run _ _ _)] at rest
        cases rest
        exact ⟨_, _, .assign rightLowers leftLowers, by simp⟩
      case isFalse notAssign =>
        split at accepted
        case isTrue => exact absurd accepted irFatal_ne_ok
        case isFalse known =>
          obtain ⟨a, middle, lowered, rest⟩ := bind_eq_ok.mp accepted
          obtain ⟨code, tempC, leftLowers, rfl⟩ := irExprF_lowers left lowered
          obtain ⟨b, final', lowered, rest⟩ := bind_eq_ok.mp rest
          obtain ⟨code', tempC', rightLowers, rfl⟩ := irExprF_lowers right lowered
          cases rest
          exact ⟨_, _, .binary notAssign known leftLowers rightLowers, by simp [Ir.append]⟩
  | .functionCall name args =>
      obtain ⟨ts, middle, lowered, rest⟩ := bind_eq_ok.mp accepted
      obtain ⟨code, tempC, argsLower, rfl⟩ := irArgs_lowers args lowered
      cases rest
      exact ⟨_, _, .call argsLower, by simp [Ir.append]⟩
  | .expr _ | .scope _ _ | .function _ _ _ _ _ | .extrn _ | .auto _ _ | .if_ _ _ _
  | .elseIf _ _ _ | .else_ _ _ | .while_ _ _ | .return_ _ | .lable _ | .goto _
  | .global _ _ => exact absurd accepted irFatal_ne_ok
  termination_by structural node

private theorem irLvalue_lowers (node : AstNode) {scope : List Nat} {ir final : Ir} {lv : LValue}
    (accepted : irLvalue node scope ir = .ok lv final) :
    LoweredTo scope (.lvalue node) ir (.lvalue lv) final := by
  match node with
  | .atom kind value n =>
      rw [irLvalue] at accepted
      split at accepted
      case isTrue identifier =>
        subst identifier
        obtain ⟨found, rfl⟩ := irIdentLvalue_ok accepted
        exact ⟨[], _, .lvIdentifier found, by simp⟩
      case isFalse => exact absurd accepted irFatal_ne_ok
  | .unary op operand =>
      rw [irLvalue] at accepted
      split at accepted
      case isTrue deref =>
        subst deref
        obtain ⟨a, middle, lowered, rest⟩ := bind_eq_ok.mp accepted
        obtain ⟨code, tempC, operandLowers, rfl⟩ := irExprF_lowers operand lowered
        cases rest
        exact ⟨code, _, .lvDeref operandLowers, rfl⟩
      case isFalse => exact absurd accepted irFatal_ne_ok
  | .binary _ _ _ | .functionCall _ _ | .expr _ | .scope _ _ | .function _ _ _ _ _
  | .extrn _ | .auto _ _ | .if_ _ _ _ | .elseIf _ _ _ | .else_ _ _ | .while_ _ _
  | .return_ _ | .lable _ | .goto _ | .global _ _ => exact absurd accepted irFatal_ne_ok
  termination_by structural node

private theorem irArgs_lowers (nodes : List AstNode) {scope : List Nat} {ir final : Ir}
    {ts : List Nat} (accepted : irArgs nodes scope ir = .ok ts final) :
    LoweredTo scope (.args nodes) ir (.temps ts) final := by
  match nodes with
  | [] =>
      cases accepted
      exact ⟨[], _, .argsNil, by simp⟩
  | arg :: args =>
      obtain ⟨a, middle, lowered, rest⟩ := bind_eq_ok.mp accepted
      obtain ⟨code, tempC, argLowers, rfl⟩ := irExprF_lowers arg lowered
      obtain ⟨ts, final', lowered, rest⟩ := bind_eq_ok.mp rest
      obtain ⟨code', tempC', argsLower, rfl⟩ := irArgs_lowers args lowered
      cases rest
      exact ⟨_, _, .argsCons argLowers argsLower, by simp⟩
  termination_by structural nodes

end

end Trident
