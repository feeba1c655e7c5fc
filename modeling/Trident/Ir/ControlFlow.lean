import Trident.Ir.ExprCorrect
import Trident.Ir.WellFormed
import Trident.Source.Exec
import Mathlib.Data.List.TakeWhile

/-! The nodes of a function without labels do what the execution of its body
does: the same conditions, expressions and effects in the same order, and the
same return. -/

set_option autoImplicit false

namespace Trident

open Foundation

variable {σ : Type} {w : World σ} {cell : Nat → Word} {nodes : List IrNode}

/-! Steps of the machine through code without jumps. -/

private theorem exec_straight {node : IrNode} (straight : node.Straight) (word word' : Word) :
    node.exec w word = node.exec w word' := by
  cases node with
  | operation d op a b imm name =>
      cases op <;> first | rfl | exact absurd rfl straight
  | _ => rfl

theorem irStep_straight {node : IrNode} (straight : node.Straight) (word : Word)
    (rest : List IrNode) (state : IrState σ) :
    irStep w cell nodes (node :: rest) state =
      (node.exec w word >>= fun _ => pure (.more rest)) state := by
  cases node with
  | operation d op a b imm name =>
      change (IrNode.exec w _ (.operation d op a b imm name) >>= _) state = _
      rw [exec_straight straight]
  | call d name args => rfl
  | _ => exact straight.elim

theorem irStep_ret {t : Nat} {value : Word} {rest : List IrNode} {temps : Temps} {store : Store σ}
    (used : t ≠ 0) (held : temps t = some value) :
    irStep w cell nodes (.ret t :: rest) ⟨temps, store⟩ = .ok (.done value) ⟨temps, store⟩ := by
  change (if t = 0 then _ else _ : IrStateM σ _) _ = _
  rw [if_neg used, bind_run_of_ok (readTemp_some held)]
  rfl

theorem path_straight {code : List IrNode} (straight : ∀ node ∈ code, node.Straight)
    {word : Word} {state final : IrState σ} (rest : List IrNode)
    (ran : execNodes w word code state = .ok () final) :
    Path (irStep w cell nodes) code.length (code ++ rest) state rest final := by
  induction code generalizing state with
  | nil =>
      cases ran
      exact .refl
  | cons node code ih =>
      obtain ⟨first, others⟩ := List.forall_mem_cons.mp straight
      obtain ⟨_, middle, stepped, ran⟩ := bind_eq_ok.mp ran
      refine .cons (t := middle) ?_ (ih others ran)
      rw [List.cons_append, irStep_straight first word, bind_run_of_ok stepped]
      rfl

theorem ends_straight {code : List IrNode} (straight : ∀ node ∈ code, node.Straight)
    {word : Word} {halt : Halt} {state final : IrState σ} (rest : List IrNode)
    (ran : execNodes w word code state = .error halt final) :
    Ends (irStep w cell nodes) (code ++ rest) state (.error halt final) := by
  induction code generalizing state with
  | nil => cases ran
  | cons node code ih =>
      obtain ⟨first, others⟩ := List.forall_mem_cons.mp straight
      obtain stopped | ⟨_, middle, stepped, ran⟩ := bind_eq_error.mp ran
      · refine ⟨0, _, _, .refl, ?_⟩
        rw [List.cons_append, irStep_straight first word, bind_run_of_error stopped]
      · refine .of_path (.one ?_) (ih others ran)
        rw [List.cons_append, irStep_straight first word, bind_run_of_ok stepped]
        rfl

/-! A phrase and its code, and the rules by which phrases are put together. -/

/-- From `ahead`, the machine does what led to the outcome of a phrase: it gets
to `rest` with temporaries for which `after` holds, or its run ends in the same
way, or takes at least `limit` steps. -/
def Follows (w : World σ) (cell : Nat → Word) (nodes : List IrNode) (limit : Nat)
    (ahead : List IrNode) (state : IrState σ) (rest : List IrNode)
    (after : Env → Temps → Prop) : EStateM.Result Halt (Store σ) Outcome → Prop
  | .ok (.done env) store => ∃ n temps,
      Path (irStep w cell nodes) n ahead state rest ⟨temps, store⟩ ∧ after env temps
  | .ok (.returned value) store => ∃ temps,
      Ends (irStep w cell nodes) ahead state (.ok value ⟨temps, store⟩)
  | .ok .running _ => ∃ n last final, limit ≤ n ∧ Path (irStep w cell nodes) n ahead state last final
  | .error halt store => ∃ temps,
      Ends (irStep w cell nodes) ahead state (.error halt ⟨temps, store⟩)

namespace Follows

variable {limit n : Nat} {ahead middle rest : List IrNode} {state state' : IrState σ}
  {after after' : Env → Temps → Prop} {result : EStateM.Result Halt (Store σ) Outcome}

theorem mono {less : Nat} (follows : Follows w cell nodes limit ahead state rest after result)
    (le : less ≤ limit) (weaker : ∀ env temps, after env temps → after' env temps) :
    Follows w cell nodes less ahead state rest after' result := by
  cases result with
  | ok outcome store =>
      cases outcome with
      | done env =>
          obtain ⟨n, temps, path, holds⟩ := follows
          exact ⟨n, temps, path, weaker env temps holds⟩
      | returned value => exact follows
      | running =>
          obtain ⟨n, last, final, long, path⟩ := follows
          exact ⟨n, last, final, Nat.le_trans le long, path⟩
  | error halt store => exact follows

theorem of_path (path : Path (irStep w cell nodes) n ahead state middle state')
    (follows : Follows w cell nodes limit middle state' rest after result) :
    Follows w cell nodes (n + limit) ahead state rest after result := by
  cases result with
  | ok outcome store =>
      cases outcome with
      | done env =>
          obtain ⟨m, temps, later, holds⟩ := follows
          exact ⟨n + m, temps, path.trans later, holds⟩
      | returned value =>
          obtain ⟨temps, ends⟩ := follows
          exact ⟨temps, .of_path path ends⟩
      | running =>
          obtain ⟨m, last, final, long, later⟩ := follows
          exact ⟨n + m, last, final, by omega, path.trans later⟩
  | error halt store =>
      obtain ⟨temps, ends⟩ := follows
      exact ⟨temps, .of_path path ends⟩

theorem after_path (path : Path (irStep w cell nodes) n ahead state middle state')
    (follows : Follows w cell nodes limit middle state' rest after result) :
    Follows w cell nodes limit ahead state rest after result :=
  (of_path path follows).mono (Nat.le_add_left limit n) fun _ _ holds => holds

theorem path_after (follows : Follows w cell nodes limit ahead state middle after result)
    (path : ∀ temps store,
      Path (irStep w cell nodes) n middle ⟨temps, store⟩ rest ⟨temps, store⟩) :
    Follows w cell nodes limit ahead state rest after result := by
  cases result with
  | ok outcome store =>
      cases outcome with
      | done env =>
          obtain ⟨m, temps, earlier, holds⟩ := follows
          exact ⟨m + n, temps, earlier.trans (path temps store), holds⟩
      | returned value => exact follows
      | running => exact follows
  | error halt store => exact follows

theorem andThen {first : StoreM σ Outcome} {next : Env → StoreM σ Outcome} {store : Store σ}
    (follows : Follows w cell nodes limit ahead state middle after (first store))
    (later : ∀ env temps store', after env temps →
      Follows w cell nodes limit middle ⟨temps, store'⟩ rest after' (next env store')) :
    Follows w cell nodes limit ahead state rest after' (Trident.andThen first next store) := by
  cases ran : first store with
  | ok outcome store' =>
      rw [ran] at follows
      rw [Trident.andThen, bind_run_of_ok ran]
      cases outcome with
      | done env =>
          obtain ⟨n, temps, path, holds⟩ := follows
          exact after_path path (later env temps store' holds)
      | returned value => exact follows
      | running => exact follows
  | error halt store' =>
      rw [ran] at follows
      rw [Trident.andThen, bind_run_of_error ran]
      exact follows

/-- The code of an expression, before code that goes on with its value. -/
theorem expr {vars : Vars} {node : AstNode} {t t' a : Nat} {code : List IrNode} {env : Env}
    {temps : Temps} {store : Store σ} {next : Word → StoreM σ Outcome}
    (lowers : Lowers vars (.expr node) t code (.temp a) t')
    (represents : Represents w vars t temps env)
    (later : ∀ value temps' store', temps' a = some value → (∀ i ≤ t, temps' i = temps i) →
      Follows w cell nodes limit middle ⟨temps', store'⟩ rest after (next value store')) :
    Follows w cell nodes limit (code ++ middle) ⟨temps, store⟩ rest after
      ((evalExpr w env node >>= next) store) := by
  have delivered := lowers.delivers 0 represents store _ rfl
  cases ran : evalExpr w env node store with
  | ok value store' =>
      rw [ran] at delivered
      obtain ⟨_, ⟨temps', _⟩, followed, rfl, held, kept⟩ := delivered
      rw [bind_run_of_ok ran]
      exact after_path (path_straight lowers.straight middle followed)
        (later value temps' _ held.1 kept)
  | error halt store' =>
      rw [ran] at delivered
      obtain impossible | ⟨⟨temps', _⟩, followed, rfl⟩ := delivered
      · exact impossible.elim
      · rw [bind_run_of_error ran]
        exact ⟨temps', ends_straight lowers.straight middle followed⟩

/-- The code of a condition, before a branch on its value. -/
theorem condition {vars : Vars} {node : AstNode} {t t' a id idF : Nat} {code yes no : List IrNode}
    {env : Env} {temps : Temps} {store : Store σ} {onTrue onFalse : StoreM σ Outcome}
    (lowers : Lowers vars (.expr node) t code (.temp a) t')
    (represents : Represents w vars t temps env)
    (target : labelTarget id nodes = yes) (targetF : labelTarget idF nodes = no)
    (holds : ∀ temps' store', (∀ i ≤ t, temps' i = temps i) →
      Follows w cell nodes limit yes ⟨temps', store'⟩ rest after (onTrue store'))
    (fails : ∀ temps' store', (∀ i ≤ t, temps' i = temps i) →
      Follows w cell nodes limit no ⟨temps', store'⟩ rest after (onFalse store')) :
    Follows w cell nodes limit (code ++ .branch id idF a :: middle) ⟨temps, store⟩ rest after
      ((evalCondition w env node >>= fun holds => if holds then onTrue else onFalse) store) := by
  have evaluated : (evalCondition w env node >>= fun holds => if holds then onTrue else onFalse)
      store = (evalExpr w env node >>= fun value =>
        testWord value >>= fun holds => if holds then onTrue else onFalse) store := by
    rw [evalCondition, bind_run, bind_run, bind_run]
    cases evalExpr w env node store <;> rfl
  rw [evaluated]
  refine expr lowers represents fun value temps' store' held kept => ?_
  have step : irStep w cell nodes (.branch id idF a :: middle) ⟨temps', store'⟩ =
      .ok (.more (labelTarget (if decide (value ≠ 0) then id else idF) nodes))
        ⟨temps', store'.log (.test value)⟩ := by
    change (readTemp a >>= fun value => _) _ = _
    rw [bind_run_of_ok (readTemp_some held)]
    rfl
  refine after_path (.one step) ?_
  change Follows w cell nodes limit _ _ rest after
    ((if decide (value ≠ 0) then onTrue else onFalse) (store'.log (.test value)))
  cases decide (value ≠ 0) with
  | true => exact target ▸ holds temps' _ kept
  | false => exact targetF ▸ fails temps' _ kept

end Follows

/-! What a phrase has in common with its code apart from the run: its words in the frame, its
temporaries, and its place among the nodes. -/

/-- A label that is defined once is where a jump to it goes. -/
private theorem labelTarget_eq {before rest : List IrNode} {id : Nat}
    (placed : nodes = before ++ .label id :: rest) (once : nodes.count (.label id) = 1) :
    labelTarget id nodes = .label id :: rest := by
  have absent : .label id ∉ before := by
    intro member
    have counted := List.count_pos_iff.mpr member
    rw [placed, List.count_append, List.count_cons_self] at once
    omega
  rw [labelTarget, placed, List.dropWhile_append_of_pos, List.dropWhile_cons_of_neg]
  · simp
  · intro node member
    have other : node ≠ .label id := fun same => absent (same ▸ member)
    simp [other]

/-- The number of words in the frame that a phrase declares. -/
def ScopePhrase.autoCount : ScopePhrase → Nat
  | .stmt node => node.autoCount
  | .stmts nodes => autoCountOf nodes
  | .block _ body => autoCountOf body
  | .chain rest => autoCountOfChain rest

/-- The execution of a phrase. -/
def execPhrase (w : World σ) (cell : Nat → Word) (limit : Nat) :
    ScopePhrase → Nat → Env → StoreM σ Outcome
  | .stmt node, k, env => execStatement w cell limit node k env
  | .stmts nodes, k, env => execStatements w cell limit nodes k env
  | .block _ body, k, env =>
      andThen (execStatements w cell limit body k env) fun _ => return .done env
  | .chain rest, k, env => execChain w cell limit rest k env

def allocCount (nodes : List IrNode) : Nat := nodes.countP (·.isAlloc)

@[simp] theorem allocCount_nil : allocCount [] = 0 := rfl

@[simp] theorem allocCount_append (first second : List IrNode) :
    allocCount (first ++ second) = allocCount first + allocCount second := List.countP_append

@[simp] theorem allocCount_cons (node : IrNode) (rest : List IrNode) :
    allocCount (node :: rest) = allocCount rest + if node.isAlloc then 1 else 0 :=
  List.countP_cons

theorem allocCount_straight {code : List IrNode} (straight : ∀ node ∈ code, node.Straight) :
    allocCount code = 0 :=
  List.countP_eq_zero.mpr fun node member => by simp [(straight node member).isAlloc]

theorem Generates.count_allocs {declared : CStr → Prop} {endLable : Nat} {phrase : ScopePhrase}
    {g g' : GenState} {code : List (IrNode × List Nat)}
    (generates : Generates declared endLable phrase g code g') :
    allocCount (code.map Prod.fst) = phrase.autoCount := by
  induction generates with
  | return_ lowers =>
      simp [allocCount_straight lowers.straight, IrNode.isAlloc, ScopePhrase.autoCount,
        AstNode.autoCount]
  | expr lowers =>
      simp [allocCount_straight lowers.straight, ScopePhrase.autoCount, AstNode.autoCount]
  | auto => rfl
  | extrn | nil | noChain | lable | goto => rfl
  | scope _ ih | else_ _ ih | block _ ih => exact ih
  | if_ _ ih =>
      rw [List.map_append, allocCount_append, ih]
      rfl
  | while_ lowers _ ih =>
      simp only [List.map_append, mark_fst, allocCount_append, allocCount_cons, List.cons_append,
        ih, allocCount_straight lowers.straight]
      simp [IrNode.isAlloc, ScopePhrase.autoCount, AstNode.autoCount]
  | cons _ _ firstIH restIH =>
      rw [List.map_append, allocCount_append, firstIH, restIH]
      rfl
  | elseIf lowers _ _ bodyIH chainIH =>
      simp only [List.map_append, mark_fst, allocCount_append, allocCount_cons, bodyIH, chainIH,
        allocCount_straight lowers.straight]
      simp [IrNode.isAlloc, ScopePhrase.autoCount, AstNode.autoCount, autoCountOfChain]

theorem Generates.temps_le {declared : CStr → Prop} {endLable : Nat} {phrase : ScopePhrase}
    {g g' : GenState} {code : List (IrNode × List Nat)}
    (generates : Generates declared endLable phrase g code g') : g.temps ≤ g'.temps := by
  induction generates with
  | return_ lowers | expr lowers => exact lowers.le
  | auto => exact Nat.le_succ _
  | extrn | nil | noChain => exact Nat.le_refl _
  | @lable _ name g | @goto _ name g =>
      unfold GenState.number
      split <;> exact Nat.le_refl _
  | scope _ ih | else_ _ ih | block _ ih | if_ _ ih => exact ih
  | while_ lowers _ ih => exact Nat.le_trans lowers.le ih
  | cons _ _ firstIH restIH => exact Nat.le_trans firstIH restIH
  | elseIf lowers _ _ bodyIH chainIH =>
      exact Nat.le_trans lowers.le (Nat.le_trans bodyIH chainIH)

theorem Represents.hide {vars : Vars} {t : Nat} {temps : Temps} {env : Env} (names : List CStr)
    (represents : Represents w vars t temps env) : Represents w (vars.hide names) t temps env := by
  intro name lv found
  rw [Vars.hide] at found
  split at found
  · cases found
  · exact represents name lv found

theorem Represents.bind {vars : Vars} {t t' : Nat} {before after : Temps} {env : Env} {lv : LValue}
    {addr : Word} (name : CStr) (represents : Represents w vars t before env) (le : t ≤ t')
    (kept : ∀ i ≤ t, after i = before i) (held : lv.addr w after = some addr)
    (within : lv.Within t') : Represents w (vars.bind name lv) t' after (env.bind name addr) := by
  intro other lv' found
  by_cases same : SameName other name
  · rw [Vars.bind, if_pos same] at found
    cases found
    rw [Env.bind, if_pos same]
    exact ⟨held, within⟩
  · rw [Vars.bind, if_neg same] at found
    rw [Env.bind, if_neg same]
    exact represents.mono le kept other lv' found

/-- What a loop does, from what one turn of it does. -/
theorem Follows.loop (total : Nat) (inv : Temps → Prop) {head rest : List IrNode}
    {after : Env → Temps → Prop} {test : StoreM σ Bool} {body : StoreM σ Outcome} {env : Env}
    (turn : ∀ (next : StoreM σ Outcome) (limit : Nat), limit ≤ total →
      (∀ temps store, inv temps →
        Follows w cell nodes limit head ⟨temps, store⟩ rest after (next store)) →
      ∀ temps store, inv temps → Follows w cell nodes (1 + limit) head ⟨temps, store⟩ rest after
        ((test >>= fun holds =>
          if holds then Trident.andThen body fun _ => next else return .done env) store)) :
    ∀ limit ≤ total, ∀ temps store, inv temps →
      Follows w cell nodes limit head ⟨temps, store⟩ rest after
        (execLoop test body env limit store) := by
  intro limit
  induction limit with
  | zero => exact fun _ temps store _ => ⟨0, head, ⟨temps, store⟩, Nat.le_refl 0, .refl⟩
  | succ limit ih =>
      intro le temps store holds
      have small : limit ≤ total := Nat.le_of_succ_le le
      have next := turn (execLoop test body env limit) limit small (ih small) temps store holds
      rw [Nat.add_comm] at next
      exact next

/-- The code of a phrase stands among the nodes of its function, before `rest`
and with `k` words of the frame before it. -/
def Standing (nodes code rest : List IrNode) (k : Nat) : Prop :=
  ∃ before, nodes = before ++ (code ++ rest) ∧ allocCount before = k

theorem Standing.first {code later rest : List IrNode} {k : Nat}
    (standing : Standing nodes (code ++ later) rest k) : Standing nodes code (later ++ rest) k := by
  obtain ⟨before, placed, index⟩ := standing
  exact ⟨before, by rw [placed, List.append_assoc], index⟩

theorem Standing.later {code later rest : List IrNode} {k : Nat}
    (standing : Standing nodes (code ++ later) rest k) :
    Standing nodes later rest (k + allocCount code) := by
  obtain ⟨before, placed, index⟩ := standing
  exact ⟨before ++ code, by rw [placed, List.append_assoc, List.append_assoc], by
    rw [allocCount_append, index]⟩

theorem Standing.target {later rest : List IrNode} {id k : Nat}
    (standing : Standing nodes (.label id :: later) rest k)
    (once : nodes.count (.label id) = 1) : labelTarget id nodes = .label id :: (later ++ rest) := by
  obtain ⟨before, placed, _⟩ := standing
  exact labelTarget_eq placed once

theorem Standing.irStep_alloc {rest : List IrNode} {k d : Nat} {temps : Temps}
    {store : Store σ} (standing : Standing nodes [.operation d .alloc 0 0] rest k) :
    irStep w cell nodes (.operation d .alloc 0 0 :: rest) ⟨temps, store⟩ =
      .ok (.more rest) ⟨Function.update temps d (some (cell k)), store⟩ := by
  have index : allocCount nodes - allocCount (.operation d .alloc 0 0 :: rest) = k := by
    obtain ⟨before, placed, index⟩ := standing
    rw [placed, allocCount_append, index]
    exact Nat.add_sub_cancel ..
  change (IrNode.exec w (cell (allocCount nodes - allocCount _)) _ >>= _) _ = _
  rw [index]
  rfl

/-! By induction on how the phrase was generated. -/

theorem Generates.follows (cell : Nat → Word) (limit : Nat) {declared : CStr → Prop}
    {endLable : Nat} {phrase : ScopePhrase}
    {g g' : GenState} {code : List (IrNode × List Nat)}
    (generates : Generates declared endLable phrase g code g') (plain : ∀ name, ¬ declared name)
    (numbered : g.Numbered) (once : ∀ id ∈ g'.made, nodes.count (.label id) = 1)
    {rest : List IrNode} {k : Nat} (standing : Standing nodes (code.map Prod.fst) rest k)
    (ends : ∀ chain, phrase = .chain chain → labelTarget endLable nodes = rest)
    {temps : Temps} {env : Env} (represents : Represents w g.vars g.temps temps env)
    (zero : temps 0 = none) (store : Store σ) :
    Follows w cell nodes limit (code.map Prod.fst ++ rest) ⟨temps, store⟩ rest
      (fun env' temps' =>
        Represents w g'.vars g'.temps temps' env' ∧ ∀ i ≤ g.temps, temps' i = temps i)
      (execPhrase w cell limit phrase k env store) := by
  induction generates generalizing rest k temps env store with
  | @return_ _ _ _ _ a _ lowers =>
      rw [mark_fst, List.append_assoc]
      refine Follows.expr lowers represents fun value temps' store' held kept => ?_
      have used : a ≠ 0 := by
        rintro rfl
        rw [kept 0 (Nat.zero_le _), zero] at held
        cases held
      exact ⟨temps', 0, _, _, .refl, irStep_ret used held⟩
  | expr lowers =>
      rw [mark_fst]
      exact Follows.expr lowers represents fun value temps' store' held kept =>
        ⟨0, temps', .refl, represents.mono lowers.le kept, kept⟩
  | @auto _ name _ g =>
      have kept (i : Nat) (le : i ≤ g.temps) :
          Function.update temps (g.temps + 1) (some (cell k)) i = temps i :=
        Function.update_of_ne (by omega) ..
      exact ⟨1, Function.update temps (g.temps + 1) (some (cell k)), .one standing.irStep_alloc,
        represents.bind name (Nat.le_succ _) kept (Function.update_self ..) (Nat.le_refl _), kept⟩
  | extrn | nil | noChain => exact ⟨0, temps, .refl, represents, fun _ _ => rfl⟩
  | lable known | goto known => exact absurd known (plain _)
  | scope _ ih | else_ _ ih =>
      exact ih numbered once standing (fun _ same => by cases same) represents zero store
  | @if_ _ _ _ _ g code g' generates ih =>
      have later := (generates.numbering (numbered.make 1)).2
      have made : g.lables + 1 ∈ g'.made := later.made.subset (by simp [GenState.make, Trail.make])
      rw [List.map_append, mark_fst] at standing ⊢
      rw [List.append_assoc]
      have target := standing.later.target (once _ made)
      have chain := ih (numbered.make 1) once standing.first (fun _ _ => target) represents zero
        store
      exact chain.path_after fun temps store => .one rfl
  | @while_ _ condition scopeN body g code c t bodyCode g' lowers generates ih =>
      have later := (generates.numbering ((numbered.make 3).of_eq rfl rfl rfl)).2
      have made (i : Nat) (small : i < 3) : nodes.count (.label (g.lables + 1 + i)) = 1 :=
        once _ (later.made.subset (List.mem_append_right _
          (List.mem_range'_1.mpr ⟨Nat.le_add_right _ _, by omega⟩)))
      simp only [List.map_append, mark_fst, List.append_assoc, List.cons_append,
        List.nil_append] at standing ⊢
      have start := standing.target (made 0 (by omega))
      simp only [List.append_assoc, List.cons_append, List.nil_append] at start
      have grouped : Standing nodes
          ((.label (g.lables + 1) :: code ++ [.branch (g.lables + 2) (g.lables + 3) c]) ++
            ([.label (g.lables + 2)] ++ (bodyCode.map Prod.fst ++
              ([.jump (g.lables + 1)] ++ [.label (g.lables + 3)])))) rest k := by
        simpa using standing
      have tested := grouped.later
      have entered : labelTarget (g.lables + 2) nodes = .label (g.lables + 2) ::
          (bodyCode.map Prod.fst ++ ([.jump (g.lables + 1)] ++ [.label (g.lables + 3)] ++ rest)) := by
        rw [tested.target (made 1 (by omega))]
        simp
      have left := tested.later.later.later.target (made 2 (by omega))
      have inner : Standing nodes (bodyCode.map Prod.fst)
          ([.jump (g.lables + 1)] ++ [.label (g.lables + 3)] ++ rest) k := by
        have straight := allocCount_straight lowers.straight
        simpa [straight, IrNode.isAlloc] using tested.later.first
      refine Follows.loop limit (fun temps' => ∀ i ≤ g.temps, temps' i = temps i) ?_ limit
        (Nat.le_refl _) temps store fun _ _ => rfl
      intro next less le again temps' store' kept
      have represents' := represents.mono (Nat.le_refl _) kept
      refine Follows.of_path (.one rfl) ?_
      refine Follows.condition lowers represents' entered left ?_ ?_
      · intro temps'' store'' kept'
        have all (i : Nat) (le : i ≤ g.temps) : temps'' i = temps i :=
          (kept' i le).trans (kept i le)
        refine Follows.after_path (.one rfl) ?_
        have body := ih ((numbered.make 3).of_eq rfl rfl rfl) once inner
          (fun _ same => by cases same) (represents'.mono lowers.le kept')
          ((all 0 (Nat.zero_le _)).trans zero) store''
        refine Follows.andThen (body.mono le fun _ _ holds => holds) ?_
        intro env' last store₃ ended
        refine Follows.after_path (.one rfl) (start ▸ again last store₃ ?_)
        intro i le
        exact (ended.2 i (Nat.le_trans le lowers.le)).trans (all i le)
      · intro temps'' store'' kept'
        have all (i : Nat) (le : i ≤ g.temps) : temps'' i = temps i :=
          (kept' i le).trans (kept i le)
        refine ⟨1, temps'', .one rfl, ?_, all⟩
        rw [(generates.scope_eq rfl).1]
        exact represents.mono (Nat.le_trans lowers.le generates.temps_le) all
  | @cons _ _ _ g code middle code' g' first second firstIH restIH =>
      obtain ⟨numbered', _⟩ := first.numbering numbered
      obtain ⟨_, later⟩ := second.numbering numbered'
      have once' : ∀ id ∈ middle.made, nodes.count (.label id) = 1 :=
        fun id member => once id (later.made.subset member)
      rw [List.map_append] at standing ⊢
      rw [List.append_assoc]
      refine (firstIH numbered once' standing.first (fun _ same => by cases same) represents zero
        store).andThen fun env' temps' store' ended => ?_
      obtain ⟨represents', kept⟩ := ended
      have standing' := standing.later
      rw [first.count_allocs] at standing'
      refine (restIH numbered' once standing' (fun _ same => by cases same) represents'
        ((kept 0 (Nat.zero_le _)).trans zero) store').mono (Nat.le_refl _) ?_
      intro env'' temps'' ended'
      obtain ⟨represents'', kept'⟩ := ended'
      exact ⟨represents'', fun i le =>
        (kept' i (Nat.le_trans le first.temps_le)).trans (kept i le)⟩
  | @block _ _ _ g g' _ generates ih =>
      refine (ih (numbered.of_eq rfl rfl rfl) once standing (fun _ same => by cases same)
        (represents.hide _) zero store).andThen fun env' temps' store' ended => ?_
      exact ⟨0, temps', .refl, represents.mono generates.temps_le ended.2, ended.2⟩
  | @elseIf endLable condition scopeN body chain g code c t bodyCode middle chainCode g' lowers
      generates chained bodyIH chainIH =>
      obtain ⟨numbered', made⟩ := generates.numbering ((numbered.make 2).of_eq rfl rfl rfl)
      obtain ⟨_, later⟩ := chained.numbering numbered'
      have once' : ∀ id ∈ middle.made, nodes.count (.label id) = 1 :=
        fun id member => once id (later.made.subset member)
      have fresh (i : Nat) (small : i < 2) : nodes.count (.label (g.lables + 1 + i)) = 1 :=
        once' _ (made.made.subset (List.mem_append_right _
          (List.mem_range'_1.mpr ⟨Nat.le_add_right _ _, by omega⟩)))
      simp only [List.map_append, mark_fst, List.append_assoc, List.cons_append,
        List.nil_append] at standing ⊢
      have grouped : Standing nodes
          ((code ++ [.branch (g.lables + 1) (g.lables + 2) c]) ++
            ([.label (g.lables + 1)] ++ (bodyCode.map Prod.fst ++
              ([.jump endLable] ++ ([.label (g.lables + 2)] ++ chainCode.map Prod.fst)))))
          rest k := by
        simpa using standing
      have tested := grouped.later
      have entered : labelTarget (g.lables + 1) nodes = .label (g.lables + 1) ::
          (bodyCode.map Prod.fst ++ ([.jump endLable] ++ ([.label (g.lables + 2)] ++
            chainCode.map Prod.fst) ++ rest)) := by
        rw [tested.target (fresh 0 (by omega))]
        simp
      have skipped := tested.later.later.later.target (fresh 1 (by omega))
      have straight := allocCount_straight lowers.straight
      have inner : Standing nodes (bodyCode.map Prod.fst)
          ([.jump endLable] ++ ([.label (g.lables + 2)] ++ chainCode.map Prod.fst) ++ rest) k := by
        simpa [straight, IrNode.isAlloc] using tested.later.first
      have last : Standing nodes (chainCode.map Prod.fst) rest (k + autoCountOf body) := by
        have count := generates.count_allocs
        simpa [straight, IrNode.isAlloc, count, ScopePhrase.autoCount] using
          tested.later.later.later.later
      refine Follows.condition lowers represents entered skipped ?_ ?_
      · intro temps' store' kept
        refine Follows.after_path (.one rfl) ?_
        have ran := bodyIH ((numbered.make 2).of_eq rfl rfl rfl) once' inner
          (fun _ same => by cases same) (represents.mono lowers.le kept)
          ((kept 0 (Nat.zero_le _)).trans zero) store'
        have target := ends _ rfl
        have joined : Follows w cell nodes limit _ _ rest _ _ :=
          ran.path_after fun temps store => .one (by rw [← target]; rfl)
        refine joined.mono (Nat.le_refl _) fun env' temps'' ended => ⟨?_, ?_⟩
        · rw [(chained.scope_eq rfl).1]
          exact ended.1.mono chained.temps_le fun _ _ => rfl
        · intro i le
          exact (ended.2 i (Nat.le_trans le lowers.le)).trans (kept i le)
      · intro temps' store' kept
        refine Follows.after_path (.one rfl) ?_
        have represents' : Represents w middle.vars middle.temps temps' env := by
          rw [(generates.scope_eq rfl).1]
          exact represents.mono (Nat.le_trans lowers.le generates.temps_le) kept
        have ran := chainIH numbered' once last (fun _ _ => ends _ rfl) represents'
          ((kept 0 (Nat.zero_le _)).trans zero) store'
        refine ran.mono (Nat.le_refl _) fun env' temps'' ended => ⟨ended.1, fun i le => ?_⟩
        have early : i ≤ middle.temps :=
          Nat.le_trans le (Nat.le_trans lowers.le generates.temps_le)
        exact (ended.2 i early).trans (kept i le)

/-! A function: the parameters are stored, the body runs, and a return was added at the end. -/

section Function

private theorem irStep_store {rest : List IrNode} {temps : Temps} {store : Store σ} {a b d : Nat}
    {addr value : Word} (held : temps a = some addr) (stored : temps b = some value) :
    irStep w cell nodes (.operation d .store a b :: rest) ⟨temps, store⟩ = .ok (.more rest)
      ⟨temps, { store.log (.store addr value) with mem := store.mem.store addr value }⟩ := by
  have ran : IrNode.exec w 0 (.operation d .store a b) ⟨temps, store⟩ = .ok ()
      ⟨temps, { store.log (.store addr value) with mem := store.mem.store addr value }⟩ := by
    change (readTemp a >>= fun addr => readTemp b >>= fun value =>
      onStore (storeWord addr value)) _ = _
    rw [bind_run_of_ok (readTemp_some held), bind_run_of_ok (readTemp_some stored)]
    rfl
  have straight : (IrNode.operation d .store a b).Straight := nofun
  rw [irStep_straight straight 0, bind_run_of_ok ran]
  rfl

private theorem irStep_address {rest : List IrNode} {temps : Temps} {store : Store σ} {a b d : Nat}
    {addr : Word} (held : temps a = some addr) :
    irStep w cell nodes (.operation d .address a b :: rest) ⟨temps, store⟩ = .ok (.more rest)
      ⟨Function.update temps d (some addr), store.log (.value addr)⟩ := by
  have ran : IrNode.exec w 0 (.operation d .address a b) ⟨temps, store⟩ = .ok ()
      ⟨Function.update temps d (some addr), store.log (.value addr)⟩ := by
    change (readTemp a >>= fun addr => onStore (compute addr) >>= writeTemp d) _ = _
    rw [bind_run_of_ok (readTemp_some held)]
    rfl
  have straight : (IrNode.operation d .address a b).Straight := nofun
  rw [irStep_straight straight 0, bind_run_of_ok ran]
  rfl

/-- The code for the parameters stores the arguments as the source does, and
leaves the addresses of the parameters in their temporaries. -/
theorem path_paramCode (w : World σ) (cell : Nat → Word) {args : List Word} {k t : Nat}
    {rest : List IrNode} {temps : Temps} (store : Store σ)
    (standing : Standing nodes (paramCode args.length (k + 1) t) rest k)
    (given : ∀ i < args.length, temps (k + 1 + i) = args[i]?) (apart : k + args.length ≤ t) :
    ∃ n temps' store', enterParams cell args k store = .ok () store' ∧
      Path (irStep w cell nodes) n (paramCode args.length (k + 1) t ++ rest) ⟨temps, store⟩ rest
        ⟨temps', store'⟩ ∧
      (∀ i < args.length, temps' (k + 1 + i) = some (cell (k + i))) ∧
      ∀ i ≤ k, temps' i = temps i := by
  induction args generalizing k t temps store with
  | nil => exact ⟨0, temps, store, rfl, .refl, nofun, fun _ _ => rfl⟩
  | cons arg args ih =>
      rw [List.length_cons] at apart
      have grouped : Standing nodes
          ([IrNode.operation (t + 1) .alloc 0 0] ++ ([IrNode.operation 0 .store (t + 1) (k + 1),
            .operation (k + 1) .address (t + 1) 0] ++ paramCode args.length (k + 2) (t + 1)))
          rest k := standing
      let temps₁ := Function.update temps (t + 1) (some (cell k))
      let temps₂ := Function.update temps₁ (k + 1) (some (cell k))
      let stored := { store.log (.store (cell k) arg) with mem := store.mem.store (cell k) arg }
      have kept₁ (i : Nat) (other : i ≠ t + 1) : temps₁ i = temps i :=
        Function.update_of_ne other ..
      have kept₂ (i : Nat) (other : i ≠ k + 1) : temps₂ i = temps₁ i :=
        Function.update_of_ne other ..
      have addr_held : temps₁ (t + 1) = some (cell k) := Function.update_self ..
      have arg_held : temps₁ (k + 1) = some arg := by
        rw [kept₁ _ (by omega)]
        exact given 0 (Nat.succ_pos _)
      have given' : ∀ i < args.length, temps₂ (k + 1 + 1 + i) = args[i]? := by
        intro i small
        rw [kept₂ _ (by omega), kept₁ _ (by omega)]
        have later := given (i + 1) (Nat.succ_lt_succ small)
        rwa [show k + 1 + (i + 1) = k + 1 + 1 + i by omega] at later
      obtain ⟨n, temps', store', entered, path, held, kept⟩ :=
        ih (stored.log (.value (cell k))) grouped.later.later given' (by omega)
      refine ⟨n + 3, temps', store', ?_, ?_, ?_, ?_⟩
      · exact entered
      · exact .cons grouped.first.irStep_alloc
          (.cons (irStep_store addr_held arg_held) (.cons (irStep_address addr_held) path))
      · intro i small
        cases i with
        | zero =>
            rw [Nat.add_zero, kept (k + 1) (Nat.le_refl _)]
            exact Function.update_self ..
        | succ i =>
            have later := held i (Nat.lt_of_succ_lt_succ small)
            rw [show k + 1 + (i + 1) = k + 1 + 1 + i by omega, later]
            congr 2
            omega
      · intro i le
        rw [kept i (Nat.le_succ_of_le le), kept₂ i (by omega), kept₁ i (by omega)]

/-- Where a step goes. -/
private theorem irStep_more {node : IrNode} {rest next : List IrNode} {state state' : IrState σ}
    (stepped : irStep w cell nodes (node :: rest) state = .ok (.more next) state') :
    node.isRet = false ∧ (next = rest ∨ ∃ id ∈ node.targets, next = labelTarget id nodes) := by
  cases node with
  | label id =>
      cases stepped
      exact ⟨rfl, .inl rfl⟩
  | jump id =>
      cases stepped
      exact ⟨rfl, .inr ⟨id, List.mem_singleton.mpr rfl, rfl⟩⟩
  | branch id idF t =>
      obtain ⟨value, _, _, stepped⟩ := bind_eq_ok.mp stepped
      obtain ⟨holds, _, _, stepped⟩ := bind_eq_ok.mp stepped
      cases stepped
      cases holds with
      | true => exact ⟨rfl, .inr ⟨id, by simp [IrNode.targets], rfl⟩⟩
      | false => exact ⟨rfl, .inr ⟨idF, by simp [IrNode.targets], rfl⟩⟩
  | ret t =>
      change (if t = 0 then _ else _ : IrStateM σ _) _ = _ at stepped
      split at stepped
      · cases stepped
      · obtain ⟨value, _, _, stepped⟩ := bind_eq_ok.mp stepped
        cases stepped
  | operation d op a b imm name =>
      obtain ⟨_, _, _, stepped⟩ := bind_eq_ok.mp stepped
      cases stepped
      exact ⟨rfl, .inl rfl⟩
  | call d name args =>
      obtain ⟨_, _, _, stepped⟩ := bind_eq_ok.mp stepped
      cases stepped
      exact ⟨rfl, .inl rfl⟩

private theorem labelTarget_suffix (id : Nat) (nodes : List IrNode) : labelTarget id nodes <:+ nodes :=
  List.dropWhile_suffix _

private theorem labelTarget_ne_nil {id : Nat} (defined : .label id ∈ nodes) : labelTarget id nodes ≠ [] := by
  intro none
  have all := List.dropWhile_eq_nil_iff.mp none (.label id) defined
  simp at all

/-- Nodes that end in a return and define all labels they jump to are never left
at the end. -/
theorem path_ne_nil {ahead rest : List IrNode} {n : Nat} {state state' : IrState σ}
    (path : Path (irStep w cell nodes) n ahead state rest state')
    (last : ∃ t, nodes.getLast? = some (.ret t))
    (targets : ∀ id ∈ lableUses nodes, .label id ∈ nodes)
    (suffix : ahead <:+ nodes) (inside : ahead ≠ []) : rest ≠ [] := by
  induction path with
  | refl => exact inside
  | @cons n ahead state next _ _ _ stepped _ ih =>
      cases ahead with
      | nil => exact absurd rfl inside
      | cons node tail =>
          obtain ⟨goes, rfl | ⟨id, target, rfl⟩⟩ := irStep_more stepped
          · refine ih ((List.suffix_cons node _).trans suffix) fun ended => ?_
            subst ended
            obtain ⟨t, last⟩ := last
            obtain ⟨before, rfl⟩ := suffix
            simp at last
            subst last
            cases goes
          · have used : id ∈ lableUses nodes :=
              List.mem_flatMap.mpr ⟨node, suffix.subset List.mem_cons_self, target⟩
            exact ih (labelTarget_suffix id nodes) (labelTarget_ne_nil (targets id used))

theorem allocCount_paramCode (params i t : Nat) : allocCount (paramCode params i t) = params := by
  induction params generalizing i t with
  | zero => rfl
  | succ params ih =>
      rw [paramCode, allocCount_cons, allocCount_cons, allocCount_cons, ih]
      rfl

/-- What a call of a function does, from what its body does. -/
theorem FunctionCode.follows (w : World σ) (cell : Nat → Word) (limit : Nat)
    {params temps : Nat} {vars : Vars} {scopeN : AstScope}
    {body : List AstNode} {code : List (IrNode × List Nat)} {g : GenState} {env : Env}
    {args : List Word} (function : FunctionCode params vars scopeN body nodes temps code g)
    (bounded : VarsUpTo params vars) (plain : lablesOf body = []) (arity : args.length = params)
    (represents : ∀ temps : Temps, (∀ i < params, temps (i + 1) = some (cell i)) →
      Represents w vars (params + params) temps env) (store : Store σ) :
    match callFunction w cell limit env body args store with
    | .ok (some value) store' => ∃ temps, Ends (irStep w cell nodes) nodes
        ⟨argTemps args, store⟩ (.ok value ⟨temps, store'⟩)
    | .ok none _ => ∃ n last final, limit ≤ n ∧
        Path (irStep w cell nodes) n nodes ⟨argTemps args, store⟩ last final
    | .error halt store' => ∃ temps, Ends (irStep w cell nodes) nodes
        ⟨argTemps args, store⟩ (.error halt ⟨temps, store'⟩) := by
  obtain ⟨entry, ⟨t, last⟩, targets, _, _, _, once, _⟩ := function.wellFormed bounded
  obtain ⟨generates, nodes_eq, _⟩ := function
  have nothing (name : CStr) : ¬ Names (lablesOf body) name := by
    rw [plain]
    exact not_names_nil name
  generalize finalEq : finalReturn (.label 1 :: paramCode params 1 params ++ code.map Prod.fst)
    g.temps = final at nodes_eq
  have standing : Standing nodes
      ([IrNode.label 1] ++ (paramCode args.length 1 params ++ code.map Prod.fst)) final 0 :=
    ⟨[], by rw [nodes_eq, arity]; simp, rfl⟩
  have args_held : ∀ i < args.length, argTemps args (0 + 1 + i) = args[i]? := by
    intro i _
    rw [argTemps, if_neg (by omega), show 0 + 1 + i - 1 = i by omega]
  have entering := path_paramCode w cell store standing.later.first args_held (by omega)
  obtain ⟨n, temps', store', entered, path, held, kept⟩ := entering
  have bodyStanding : Standing nodes (code.map Prod.fst) final args.length := by
    have later := standing.later.later
    rw [allocCount_paramCode] at later
    simpa [IrNode.isAlloc] using later
  have start := represents temps' fun i small => by
    have held := held i (by omega)
    rwa [show 0 + 1 + i = i + 1 by omega, Nat.zero_add] at held
  have ran := generates.follows cell limit nothing (entry_numbered params vars)
    (fun id member => once id member) bodyStanding (fun _ same => by cases same) start
    (kept 0 (Nat.le_refl 0)) store'
  have shape : nodes = .label 1 :: (paramCode args.length (0 + 1) params ++
      (code.map Prod.fst ++ final)) := by
    rw [nodes_eq, arity]
    simp
  have labelled : Path (irStep w cell nodes) 1 nodes ⟨argTemps args, store⟩
      (paramCode args.length (0 + 1) params ++ (code.map Prod.fst ++ final))
      ⟨argTemps args, store⟩ := by
    rw [shape]
    exact .one rfl
  have ran := Follows.after_path labelled (Follows.after_path path ran)
  rw [execPhrase, Trident.andThen, bind_run, ← arity] at ran
  rw [callFunction, bind_run_of_ok entered, bind_run]
  cases result : execStatements w cell limit body args.length env store' with
  | error halt store'' =>
      rw [result] at ran
      exact ran
  | ok outcome store'' =>
      rw [result] at ran
      cases outcome with
      | returned => exact ran
      | running => exact ran
      | done env' =>
          obtain ⟨m, temps'', path', _⟩ := ran
          have inside := path_ne_nil path' ⟨t, last⟩ targets List.suffix_rfl (by simp [shape])
          rw [← finalEq, finalReturn] at path' inside
          split at path'
          case isTrue returns =>
            rw [if_pos returns] at inside
            exact absurd rfl inside
          case isFalse =>
            have straight : (IrNode.operation (g.temps + 1) .const 0 0 0).Straight :=
              straight_operation (by decide)
            have zero : irStep w cell nodes
                [.operation (g.temps + 1) .const 0 0 0, .ret (g.temps + 1)] ⟨temps'', store''⟩ =
                .ok (.more [.ret (g.temps + 1)])
                  ⟨Function.update temps'' (g.temps + 1) (some 0), store''.log (.value 0)⟩ := by
              rw [irStep_straight straight 0]
              rfl
            refine ⟨Function.update temps'' (g.temps + 1) (some 0),
              .of_path (path'.trans (.one zero)) ⟨0, _, _, .refl, ?_⟩⟩
            exact irStep_ret (Nat.succ_ne_zero _) (Function.update_self ..)

end Function

/-- Where the variables visible at the start of a function are: its parameters in
the first words of the frame, and the globals. -/
def Vars.env (w : World σ) (cell : Nat → Word) (vars : Vars) : Env := fun name =>
  match vars name with
  | some (.local_ k) => cell (k - 1)
  | _ => w.global name

namespace FunctionRun

variable (run : FunctionRun)

theorem represents_env {temps : Temps}
    (held : ∀ i < run.params, temps (i + 1) = some (cell i)) :
    Represents w run.vars (run.params + run.params) temps (run.vars.env w cell) := by
  intro name lv found
  obtain rfl | ⟨k, rfl, low, high⟩ := run.vars_eq_some found
  · exact ⟨by rw [Vars.env, found]; rfl, trivial⟩
  · refine ⟨?_, Nat.le_add_right_of_le high⟩
    have held := held (k - 1) (by omega)
    rw [show k - 1 + 1 = k by omega] at held
    rw [Vars.env, found]
    exact held

end FunctionRun

/-! Calls of a function, by the limit on the steps of their runs. -/

section Calls

variable {limit more : Nat} {args : List Word} {store : Store σ}

theorem cut_irCall : Cut (irCall w cell nodes limit args store) ↔
    Cut (runSteps (irStep w cell nodes) limit nodes ⟨argTemps args, store⟩) := by
  rw [irCall]
  constructor
  · rintro ⟨final, cut⟩
    cases ran : runSteps (irStep w cell nodes) limit nodes ⟨argTemps args, store⟩ with
    | ok result state =>
        rw [ran] at cut
        cases cut
        exact ⟨state, rfl⟩
    | error halt state =>
        rw [ran] at cut
        cases cut
  · rintro ⟨state, cut⟩
    rw [cut]
    exact ⟨state.store, rfl⟩

theorem irCall_unique (first : ¬ Cut (irCall w cell nodes limit args store))
    (second : ¬ Cut (irCall w cell nodes more args store)) :
    irCall w cell nodes limit args store = irCall w cell nodes more args store := by
  rw [cut_irCall] at first second
  rw [irCall, irCall, runSteps_unique first second]

/-- The result of a run as a call shows it. -/
def outcome : EStateM.Result Halt (IrState σ) Word → EStateM.Result Halt (Store σ) Word
  | .ok value state => .ok value state.store
  | .error halt state => .error halt state.store

theorem irCall_of_ends {result : EStateM.Result Halt (IrState σ) Word}
    (ends : Ends (irStep w cell nodes) nodes ⟨argTemps args, store⟩ result) :
    ∃ limit, irCall w cell nodes limit args store = ended (outcome result) := by
  obtain ⟨limit, ran⟩ := ends.run
  refine ⟨limit, ?_⟩
  rw [irCall, ran]
  cases result <;> rfl

end Calls

namespace FunctionRun

variable (run : FunctionRun)

/-- A function without labels: its nodes end with a result exactly when the
execution of its body does, with the same trace of conditions and effects. -/
theorem irFunctionS_correct (plain : lablesOf run.body = []) (w : World σ) (cell : Nat → Word)
    {args : List Word} (arity : args.length = run.params) (store : Store σ)
    (result : EStateM.Result Halt (Store σ) Word) :
    (∃ limit, callFunction w cell limit (run.vars.env w cell) run.body args store =
      ended result) ↔ ∃ limit, irCall w cell run.nodes limit args store = ended result := by
  obtain ⟨code, g, function⟩ := run.functionCode
  have follows := fun limit => function.follows w cell limit
    run.vars_upTo plain arity (fun _ => run.represents_env) store
  constructor
  · rintro ⟨limit, called⟩
    have follows := follows limit
    rw [called] at follows
    cases result with
    | ok value store' | error halt store' =>
        obtain ⟨temps, ends⟩ := follows
        exact irCall_of_ends ends
  · rintro ⟨limit, ran⟩
    have open_ : ¬ Cut (irCall w cell run.nodes limit args store) := ran ▸ not_cut_ended result
    have same (result' : EStateM.Result Halt (IrState σ) Word)
        (ends : Ends (irStep w cell run.nodes) run.nodes ⟨argTemps args, store⟩ result') :
        ended (outcome result') = ended result := by
      obtain ⟨more, ran'⟩ := irCall_of_ends ends
      rw [← ran', ← ran]
      exact irCall_unique (ran' ▸ not_cut_ended _) open_
    have follows := follows limit
    refine ⟨limit, ?_⟩
    cases called : callFunction w cell limit (run.vars.env w cell) run.body args store with
    | error halt store' =>
        rw [called] at follows
        obtain ⟨temps, ends⟩ := follows
        exact same _ ends
    | ok value? store' =>
        rw [called] at follows
        cases value? with
        | some value =>
            obtain ⟨temps, ends⟩ := follows
            exact same _ ends
        | none =>
            obtain ⟨n, last, final, long, path⟩ := follows
            exact absurd (cut_irCall.mpr (cut_of_le path.cut long)) open_

end FunctionRun

/-- A loop with a return in it. -/
def loopRun : FunctionRun :=
  (FunctionRun.first? (sourceTokens
    "f(n) \x7b auto i; i = 0; while (i < n) \x7b if (i == 2) \x7b return i; \x7d ++i; \x7d \x7d".toList)
    "loop.b").get (by decide +kernel)

theorem irFunctionS_correct_loop :
    let w : World Unit := ⟨fun _ => 0, fun _ => 0, fun _ _ _ _ => none⟩
    ∃ limit store, irCall w (fun k => 64 + 8 * BitVec.ofNat 64 k) loopRun.nodes limit [5]
      ⟨fun _ => 6, (), []⟩ = .ok (some 2) store := by
  intro w
  let cell : Nat → Word := fun k => 64 + 8 * BitVec.ofNat 64 k
  let start : Store Unit := ⟨fun _ => 6, (), []⟩
  have value : (match callFunction w cell 3 (loopRun.vars.env w cell) loopRun.body [5] start with
      | .ok value _ => value
      | .error _ _ => none) = some 2 := by decide +kernel
  cases called : callFunction w cell 3 (loopRun.vars.env w cell) loopRun.body [5] start with
  | error halt store =>
      rw [called] at value
      cases value
  | ok value? store =>
      rw [called] at value
      cases value
      obtain ⟨limit, ran⟩ := (loopRun.irFunctionS_correct (by decide +kernel) w cell
        (show [5].length = _ by decide +kernel) start (.ok 2 store)).mp ⟨3, called⟩
      exact ⟨limit, store, ran⟩

end Trident
