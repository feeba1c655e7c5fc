import Trident.Foundation.Simulation
import Trident.Ir.Lowering
import Trident.Ir.Machine
import Trident.Source.Eval

/-! The code of a lowered expression computes what the expression evaluates to,
with the same effects in the same order. -/

set_option autoImplicit false

namespace Trident

open Foundation

variable {σ : Type} (w : World σ) (cell : Word)

private theorem execNodes_append (first second : List IrNode) :
    execNodes w cell (first ++ second) =
      (execNodes w cell first >>= fun _ => execNodes w cell second) := by
  funext state
  induction first generalizing state with
  | nil => rfl
  | cons node rest ih =>
      change (node.exec w cell >>= fun _ => execNodes w cell (rest ++ second)) state =
        ((node.exec w cell >>= fun _ => execNodes w cell rest) >>= _) state
      simp only [bind_run]
      cases node.exec w cell state with
      | ok _ middle => exact ih middle
      | error => rfl

private theorem execNodes_singleton (node : IrNode) : execNodes w cell [node] = node.exec w cell := by
  funext state
  change (node.exec w cell >>= fun _ => pure ()) state = node.exec w cell state
  rw [bind_run]
  cases node.exec w cell state <;> rfl

/-- Running `code` from the temporaries `before` follows the computation `eval`:
it has the same effects, delivers a value for which `delivered` holds, and keeps
the temporaries up to `t`. -/
def Delivers {α : Type} (code : List IrNode) (t : Nat) (before : Temps) (eval : StoreM σ α)
    (delivered : Temps → α → Prop) : Prop :=
  Simulates (fun _ => False) (fun store (state : IrState σ) => state.store = store)
    (fun store state => state = ⟨before, store⟩) eval (execNodes w cell code)
    fun value _ store state => state.store = store ∧ delivered state.temps value ∧
      ∀ i ≤ t, state.temps i = before i

namespace Delivers

variable {w cell} {α β : Type} {code code' : List IrNode} {t t' d : Nat} {before : Temps}

theorem nil {value : α} {delivered : Temps → α → Prop} (holds : delivered before value) :
    Delivers w cell [] t before (pure value) delivered :=
  Simulates.pure fun _ _ started => by
    subst started
    exact ⟨rfl, holds, fun _ _ => rfl⟩

theorem mono {eval : StoreM σ α} {delivered delivered' : Temps → α → Prop}
    (delivers : Delivers w cell code t before eval delivered)
    (stronger : ∀ temps value, (∀ i ≤ t, temps i = before i) → delivered temps value →
      delivered' temps value) :
    Delivers w cell code t before eval delivered' :=
  Simulates.mono delivers (fun _ _ started => started)
    fun _ _ _ _ ⟨store, holds, kept⟩ => ⟨store, stronger _ _ kept holds, kept⟩

theorem seq {eval : StoreM σ α} {next : α → StoreM σ β} {middle : Temps → α → Prop}
    {delivered : Temps → β → Prop} (ordered : t ≤ t')
    (first : Delivers w cell code t before eval middle)
    (second : ∀ value temps, middle temps value → (∀ i ≤ t, temps i = before i) →
      Delivers w cell code' t' temps (next value) delivered) :
    Delivers w cell (code ++ code') t before (eval >>= next) delivered := by
  rw [Delivers, execNodes_append]
  refine Simulates.bind first fun value _ store state after => ?_
  obtain ⟨sameStore, holds, kept⟩ := after
  have run := second value state.temps holds kept store state (by rw [← sameStore])
  cases result : next value store with
  | ok last store' =>
      rw [result] at run
      obtain ⟨_, final, ran, sameStore, holds, keptLater⟩ := run
      refine ⟨_, final, ran, sameStore, holds, fun i small => ?_⟩
      rw [keptLater i (Nat.le_trans small ordered), kept i small]
  | error halt store' =>
      rw [result] at run
      exact run

/-- A node in front of the code of a continuation. -/
theorem cons {node : IrNode} {eval : StoreM σ α} {next : α → StoreM σ β}
    {middle : Temps → α → Prop} {delivered : Temps → β → Prop} (ordered : t ≤ t')
    (first : Delivers w cell [node] t before eval middle)
    (second : ∀ value temps, middle temps value → (∀ i ≤ t, temps i = before i) →
      Delivers w cell code' t' temps (next value) delivered) :
    Delivers w cell (node :: code') t before (eval >>= next) delivered :=
  seq ordered first second

theorem map {eval : StoreM σ α} {convert : α → β} {delivered : Temps → α → Prop}
    {delivered' : Temps → β → Prop} (delivers : Delivers w cell code t before eval delivered)
    (holds : ∀ temps a, delivered temps a → (∀ i ≤ t, temps i = before i) →
      delivered' temps (convert a)) :
    Delivers w cell code t before (eval >>= fun a => pure (convert a)) delivered' := by
  have joined := seq (Nat.le_refl t) delivers fun a temps held kept =>
    show Delivers w cell [] t temps (pure (convert a)) delivered' from nil (holds temps a held kept)
  rwa [List.append_nil] at joined

/-- A node that writes the result of an access to the store to a new temporary. -/
theorem write {node : IrNode} {access : StoreM σ Word} (new : t < d)
    (runs : ∀ store, node.exec w cell ⟨before, store⟩ =
      (onStore access >>= writeTemp d) ⟨before, store⟩) :
    Delivers w cell [node] t before access (fun temps value => temps d = some value) := by
  rw [Delivers, execNodes_singleton]
  intro store state started
  subst started
  rw [runs, bind_run, onStore]
  cases result : access store with
  | ok value store' =>
      refine ⟨(), ⟨Function.update before d (some value), store'⟩, rfl, rfl,
        Function.update_self .., fun i small => ?_⟩
      exact Function.update_of_ne (by omega) ..
  | error halt store' => exact .inr ⟨⟨before, store'⟩, rfl, rfl⟩

/-- A node that only accesses the store. -/
theorem access {node : IrNode} {access : StoreM σ Unit}
    (runs : ∀ store, node.exec w cell ⟨before, store⟩ = onStore access ⟨before, store⟩) :
    Delivers w cell [node] t before access (fun temps _ => temps = before) := by
  rw [Delivers, execNodes_singleton]
  intro store state started
  subst started
  rw [runs, onStore]
  cases result : access store with
  | ok value store' => exact ⟨(), ⟨before, store'⟩, rfl, rfl, rfl, fun _ _ => rfl⟩
  | error halt store' => exact .inr ⟨⟨before, store'⟩, rfl, rfl⟩

end Delivers

/-- The address an lvalue stands for. -/
def LValue.addr (temps : Temps) : LValue → Option Word
  | .global name => some (w.global name)
  | .local_ addrTemp => temps addrTemp

/-- The temporary of an lvalue is among the first `t`. -/
def LValue.Within (t : Nat) : LValue → Prop
  | .global _ => True
  | .local_ addrTemp => addrTemp ≤ t

variable {w}

theorem LValue.Within.mono {t t' : Nat} {lv : LValue} (within : lv.Within t) (le : t ≤ t') :
    lv.Within t' := by
  cases lv with
  | global => trivial
  | local_ addrTemp => exact Nat.le_trans within le

theorem LValue.addr_congr {t : Nat} {lv : LValue} {before after : Temps} (within : lv.Within t)
    (kept : ∀ i ≤ t, after i = before i) : lv.addr w after = lv.addr w before := by
  cases lv with
  | global => rfl
  | local_ addrTemp => exact kept addrTemp within

/-- The addresses of the variables are held by temporaries among the first `t`. -/
def Represents (w : World σ) (vars : CStr → Option LValue) (t : Nat) (temps : Temps)
    (env : Env) : Prop :=
  ∀ name lv, vars name = some lv → lv.addr w temps = some (env name) ∧ lv.Within t

theorem Represents.mono {vars : CStr → Option LValue} {t t' : Nat} {before after : Temps}
    {env : Env} (represents : Represents w vars t before env) (le : t ≤ t')
    (kept : ∀ i ≤ t, after i = before i) : Represents w vars t' after env := by
  intro name lv found
  obtain ⟨held, within⟩ := represents name lv found
  exact ⟨by rw [LValue.addr_congr within kept, held], within.mono le⟩

section Nodes

variable {cell} {before : Temps} {t : Nat}

private theorem delivers_compute_const {n : Nat} :
    Delivers w cell [.operation (t + 1) .const 0 0 n] t before (compute (BitVec.ofNat 64 n))
      (fun temps value => temps (t + 1) = some value) :=
  .write (Nat.lt_succ_self t) fun _ => rfl

private theorem delivers_loadNode (lv : LValue) {addr : Word} (held : lv.addr w before = some addr) :
    Delivers w cell [lv.loadNode (t + 1)] t before (loadWord addr)
      (fun temps value => temps (t + 1) = some value) := by
  cases lv with
  | global name =>
      cases held
      exact .write (Nat.lt_succ_self t) fun _ => rfl
  | local_ addrTemp =>
      refine .write (Nat.lt_succ_self t) fun store => ?_
      change before addrTemp = some addr at held
      simp [LValue.loadNode, IrNode.exec, execOp, readTemp, bind_run, held]

private theorem delivers_addrNode {lv : LValue} {addr : Word} (held : lv.addr w before = some addr) :
    Delivers w cell [lv.addrNode (t + 1)] t before (compute addr)
      (fun temps value => temps (t + 1) = some value) := by
  cases lv with
  | global name =>
      cases held
      exact .write (Nat.lt_succ_self t) fun _ => rfl
  | local_ addrTemp =>
      refine .write (Nat.lt_succ_self t) fun store => ?_
      change before addrTemp = some addr at held
      simp [LValue.addrNode, IrNode.exec, execOp, readTemp, bind_run, held]

private theorem delivers_storeNode {lv : LValue} {addr value : Word} {a : Nat}
    (held : lv.addr w before = some addr) (stored : before a = some value) :
    Delivers w cell [lv.storeNode a] t before (storeWord addr value)
      (fun temps _ => temps = before) := by
  cases lv with
  | global name =>
      cases held
      refine .access fun store => ?_
      simp [LValue.storeNode, IrNode.exec, execOp, readTemp, bind_run, stored]
  | local_ addrTemp =>
      refine .access fun store => ?_
      change before addrTemp = some addr at held
      simp [LValue.storeNode, IrNode.exec, execOp, readTemp, bind_run, held, stored]

private theorem delivers_neg {a : Nat} {value : Word} (held : before a = some value) :
    Delivers w cell [.operation (t + 1) .neg a 0] t before (compute (-value))
      (fun temps result => temps (t + 1) = some result) := by
  refine .write (Nat.lt_succ_self t) fun store => ?_
  simp [IrNode.exec, execOp, readTemp, bind_run, held]

private theorem binopToIrop_value (op : TokenKind) (left right : Word) :
    (binopToIrop op).value left right = (binaryValue op left right : StoreM σ Word) := by
  cases op <;> rfl

private theorem delivers_binary (op : TokenKind) {a b : Nat} {left right : Word}
    (known : binopToIrop op ≠ .unset) (heldLeft : before a = some left)
    (heldRight : before b = some right) :
    Delivers w cell [.operation (t + 1) (binopToIrop op) a b] t before
      (binaryValue op left right) (fun temps result => temps (t + 1) = some result) := by
  refine .write (Nat.lt_succ_self t) fun store => ?_
  rw [← binopToIrop_value]
  cases op <;>
    simp [IrNode.exec, binopToIrop, execOp, readTemp, bind_run, heldLeft, heldRight] at known ⊢

private theorem readTemps_run {ts : List Nat} {values : List Word} {store : Store σ}
    (held : List.Forall₂ (fun t value => before t = some value) ts values) :
    readTemps ts ⟨before, store⟩ = .ok values ⟨before, store⟩ := by
  induction held with
  | nil => rfl
  | cons head _ ih =>
      rw [readTemps, bind_run_of_ok (readTemp_some head), bind_run_of_ok ih]
      rfl

private theorem delivers_call {name : CStr} {ts : List Nat} {values : List Word}
    (held : List.Forall₂ (fun t value => before t = some value) ts values) :
    Delivers w cell [.call (t + 1) name ts] t before (callOut w name values)
      (fun temps result => temps (t + 1) = some result) := by
  refine .write (Nat.lt_succ_self t) fun store => ?_
  rw [IrNode.exec, bind_run_of_ok (readTemps_run held)]

/-- The nodes of `++` and `--` after the lvalue. -/
private theorem delivers_step (op : TokenKind) {lv : LValue} {addr : Word}
    (held : lv.addr w before = some addr) (within : lv.Within t)
    (known : binopToIrop op ≠ .unset) :
    Delivers w cell
      [lv.loadNode (t + 1), .operation (t + 2) .const 0 0 1,
        .operation (t + 3) (binopToIrop op) (t + 1) (t + 2), lv.storeNode (t + 3)]
      t before (stepWord op addr) (fun temps value => temps (t + 3) = some value) := by
  refine .cons (Nat.le_succ t) (delivers_loadNode lv held) fun old temps₁ held₁ kept₁ => ?_
  refine .cons (Nat.le_succ (t + 1)) delivers_compute_const
    fun one temps₂ held₂ kept₂ => ?_
  have old₂ : temps₂ (t + 1) = some old := by rw [kept₂ _ (Nat.le_refl _), held₁]
  refine .cons (Nat.le_succ (t + 2)) (delivers_binary op known old₂ held₂)
    fun new temps₃ held₃ kept₃ => ?_
  have kept : ∀ i ≤ t, temps₃ i = before i := fun i small => by
    rw [kept₃ i (by omega), kept₂ i (by omega), kept₁ i small]
  have addr₃ : lv.addr w temps₃ = some addr := by rw [LValue.addr_congr within kept, held]
  exact (delivers_storeNode addr₃ held₃).map fun temps _ same _ => by rw [same, held₃]

end Nodes

/-- The code of a phrase delivers the value of the phrase at its place. -/
abbrev DeliversPhrase (w : World σ) (cell : Word) (env : Env) (t : Nat) (before : Temps)
    (code : List IrNode) (t' : Nat) : ExprPhrase → Place → Prop
  | .expr node, .temp a =>
      Delivers w cell code t before (evalExpr w env node)
        fun temps value => temps a = some value ∧ a ≤ t'
  | .lvalue node, .lvalue lv =>
      Delivers w cell code t before (evalLvalue w env node)
        fun temps addr => lv.addr w temps = some addr ∧ lv.Within t'
  | .args nodes, .temps ts =>
      Delivers w cell code t before (evalArgs w env nodes)
        fun temps values => List.Forall₂ (fun t value => temps t = some value) ts values ∧
          ∀ a ∈ ts, a ≤ t'
  | _, _ => False

theorem Lowers.le {vars : CStr → Option LValue} {phrase : ExprPhrase} {t t' : Nat}
    {code : List IrNode} {place : Place} (lowered : Lowers vars phrase t code place t') :
    t ≤ t' := by
  induction lowered <;> omega

theorem Lowers.delivers (cell : Word) {vars : CStr → Option LValue} {phrase : ExprPhrase} {t t' : Nat}
    {code : List IrNode} {place : Place} (lowered : Lowers vars phrase t code place t')
    {env : Env} {before : Temps} (represents : Represents w vars t before env) :
    DeliversPhrase w cell env t before code t' phrase place := by
  induction lowered generalizing before with
  | int => exact delivers_compute_const.mono fun _ _ _ held => ⟨held, Nat.le_refl _⟩
  | string =>
      exact (Delivers.write (Nat.lt_succ_self _) fun _ => rfl).mono
        fun _ _ _ held => ⟨held, Nat.le_refl _⟩
  | identifier found =>
      exact (delivers_loadNode _ (represents _ _ found).1).mono
        fun _ _ _ held => ⟨held, Nat.le_refl _⟩
  | addressOf operand ih =>
      refine Delivers.seq operand.le (ih represents) fun addr temps held kept => ?_
      exact (delivers_addrNode held.1).mono fun _ _ _ held => ⟨held, Nat.le_refl _⟩
  | load operand ih =>
      refine Delivers.seq operand.le (ih represents) fun addr temps held kept => ?_
      exact (delivers_loadNode (.local_ _) held.1).mono
        fun _ _ _ held => ⟨held, Nat.le_refl _⟩
  | neg operand ih =>
      refine Delivers.seq operand.le (ih represents) fun value temps held kept => ?_
      exact (delivers_neg held.1).mono fun _ _ _ held => ⟨held, Nat.le_refl _⟩
  | not operand ih =>
      refine Delivers.seq operand.le (ih represents) fun value temps held kept => ?_
      refine Delivers.cons (Nat.le_succ _) delivers_compute_const
        fun zero temps' heldZero kept' => ?_
      have value' := (kept' _ held.2).trans held.1
      exact (delivers_binary .equal (by decide) value' heldZero).mono
        fun _ _ _ held => ⟨held, Nat.le_refl _⟩
  | inc operand ih =>
      refine Delivers.seq operand.le (ih represents) fun addr temps held kept => ?_
      exact (delivers_step .add held.1 held.2 (by decide)).mono
        fun _ _ _ held => ⟨held, Nat.le_refl _⟩
  | dec operand ih =>
      refine Delivers.seq operand.le (ih represents) fun addr temps held kept => ?_
      exact (delivers_step .sub held.1 held.2 (by decide)).mono
        fun _ _ _ held => ⟨held, Nat.le_refl _⟩
  | assign right left rightIH leftIH =>
      rw [List.append_assoc]
      refine Delivers.seq right.le (rightIH represents) fun value temps held kept => ?_
      refine Delivers.seq left.le (leftIH (represents.mono right.le kept))
        fun addr temps' heldAddr kept' => ?_
      have value' := (kept' _ held.2).trans held.1
      exact (delivers_storeNode heldAddr.1 value').map
        fun temps'' _ same _ => ⟨by rw [same, value'], Nat.le_trans held.2 left.le⟩
  | binary notAssign known left right leftIH rightIH =>
      rw [List.append_assoc]
      have evaluated : ∀ l r : AstNode, ∀ op, op ≠ TokenKind.assign →
          evalExpr w env (.binary l op r) = (do
            let a ← evalExpr w env l
            let b ← evalExpr w env r
            binaryValue op a b) := by
        intro l r op notAssign
        rw [evalExpr]
        exact notAssign
      rw [DeliversPhrase, evaluated _ _ _ notAssign]
      refine Delivers.seq left.le (leftIH represents) fun a temps heldLeft kept => ?_
      refine Delivers.seq right.le (rightIH (represents.mono left.le kept))
        fun b temps' heldRight kept' => ?_
      have left' := (kept' _ heldLeft.2).trans heldLeft.1
      exact (delivers_binary _ known left' heldRight.1).mono
        fun _ _ _ held => ⟨held, Nat.le_refl _⟩
  | call args ih =>
      refine Delivers.seq args.le (ih represents) fun values temps held kept => ?_
      exact (delivers_call held.1).mono fun _ _ _ held => ⟨held, Nat.le_refl _⟩
  | lvIdentifier found => exact Delivers.nil (represents _ _ found)
  | lvDeref operand ih =>
      exact (ih represents).mono fun _ _ _ held => held
  | argsNil => exact Delivers.nil ⟨.nil, List.forall_mem_nil _⟩
  | argsCons arg args argIH argsIH =>
      refine Delivers.seq arg.le (argIH represents) fun value temps held kept => ?_
      refine (argsIH (represents.mono arg.le kept)).map fun temps' values heldArgs kept' => ?_
      have value' := (kept' _ held.2).trans held.1
      refine ⟨.cons value' heldArgs.1, fun a member => ?_⟩
      rcases List.mem_cons.mp member with same | later
      · exact same ▸ Nat.le_trans held.2 args.le
      · exact heldArgs.2 a later

/-- An accepted expression only appends code to the current function. From any
temporaries in which its variables have their addresses, that code ends as the
evaluation of the expression does, with the same store, and leaves the value in
the temporary returned; the temporaries in use before keep their words. -/
theorem irExprF_correct {node : AstNode} {scope : List Nat} {ir final : Ir} {t : Nat}
    {env : Env} {temps : Temps} (accepted : irExprF node scope ir = .ok t final)
    (represents : Represents w (ir.heap.lvalue? scope) ir.tempC temps env) (store : Store σ) :
    ∃ code, final = ir.append code final.tempC ∧
      match evalExpr w env node store with
      | .ok value store' => ∃ temps',
          execNodes w cell code ⟨temps, store⟩ = .ok () ⟨temps', store'⟩ ∧
            temps' t = some value ∧ ∀ i ≤ ir.tempC, temps' i = temps i
      | .error halt store' => ∃ temps',
          execNodes w cell code ⟨temps, store⟩ = .error halt ⟨temps', store'⟩ := by
  obtain ⟨code, tempC, lowered, rfl⟩ := irExprF_lowers node accepted
  refine ⟨code, rfl, ?_⟩
  have delivered := lowered.delivers cell represents store _ rfl
  cases result : evalExpr w env node store with
  | ok value store' =>
      rw [result] at delivered
      obtain ⟨_, ⟨temps', _⟩, ran, rfl, held, kept⟩ := delivered
      exact ⟨temps', ran, held.1, kept⟩
  | error halt store' =>
      rw [result] at delivered
      obtain excused | ⟨⟨temps', _⟩, ran, rfl⟩ := delivered
      · exact excused.elim
      · exact ⟨temps', ran⟩

theorem irExprF_correct_increment :
    let ir : Ir :=
      { heap := ⟨fun _ => some ⟨[([120], ⟨.autoVar, 1⟩)]⟩, 1⟩, tempC := 1 }
    let store : Store Unit := ⟨fun _ => 6, (), []⟩
    ∃ code final temps',
      irExprF (.unary .inc (.atom .identifier (some [120]) 0)) [0] ir = .ok 4 final ∧
        final = ir.append code final.tempC ∧
        execNodes ⟨fun _ => 0, fun _ => 0, fun _ _ _ _ => none⟩ 0 code
            ⟨fun t => if t = 1 then some 64 else none, store⟩ =
          .ok () ⟨temps', ⟨store.mem.store 64 0x0606060606060607, (),
            [.load 64 0x0606060606060606, .value 1, .value 0x0606060606060607,
              .store 64 0x0606060606060607]⟩⟩ ∧
        temps' 4 = some 0x0606060606060607 := by
  intro ir store
  have represents : Represents (⟨fun _ => 0, fun _ => 0, fun _ _ _ _ => none⟩ : World Unit)
      (ir.heap.lvalue? [0]) ir.tempC (fun t => if t = 1 then some 64 else none) fun _ => 64 := by
    intro name lv found
    have slot : LValue.local_ 1 = lv := by
      cases name with
      | none => cases found
      | some name =>
          by_cases same : [120] = cstr name <;>
            simp [HsHeap.lvalue?, HsHeap.lookup, Hs.get, VarInfo.lvalue?, ir, same] at found
          exact found
    subst slot
    exact ⟨rfl, Nat.le_refl 1⟩
  obtain ⟨code, appended, temps', ran, held, -⟩ := irExprF_correct 0
    (show irExprF (.unary .inc (.atom .identifier (some [120]) 0)) [0] ir = .ok 4 _ from rfl)
    represents store
  have loaded : store.mem.load 64 = 0x0606060606060606 := by decide
  simp only [loaded] at ran held
  exact ⟨code, _, temps', rfl, appended, ran, held⟩

end Trident
