import Trident.Ir.ControlFlow
import Trident.Source.Jumps

/-! The nodes of a function with labels do what its body does, jumps into and out of
blocks included. A jump gets to code that was generated for other variables than
those visible at the `goto`; what is kept across it is that each declaration that
was executed has left the address of its variable in the temporary of its
`OP_ALLOC`. -/

set_option autoImplicit false

namespace Trident

open Foundation

variable {σ : Type} {w : World σ} {cell : Nat → Word} {nodes : List IrNode}

/-! Temporaries outside of a piece of code keep what they hold while it runs. -/

section Temporaries

/-- The temporaries for which `kept` holds have not changed. -/
def IrState.Keeps (kept : Nat → Prop) (before after : IrState σ) : Prop :=
  ∀ i, kept i → after.temps i = before.temps i

variable {kept : Nat → Prop}

instance : Std.Refl (IrState.Keeps (σ := σ) kept) := ⟨fun _ _ _ => rfl⟩

instance : IsTrans (IrState σ) (IrState.Keeps kept) :=
  ⟨fun _ _ _ first second i unchanged => (second i unchanged).trans (first i unchanged)⟩

namespace Keeps

theorem readTemp (t : Nat) : Steps (IrState.Keeps kept) (readTemp t : IrStateM σ Word) := by
  refine .bind .get fun state => ?_
  split
  · exact .pure _
  · exact .throw _

theorem readTemps (ts : List Nat) :
    Steps (IrState.Keeps kept) (readTemps ts : IrStateM σ (List Word)) := by
  induction ts with
  | nil => exact .pure _
  | cons t ts ih => exact .bind (readTemp t) fun _ => .bind ih fun _ => .pure _

theorem onStore {α : Type} (access : StoreM σ α) : Steps (IrState.Keeps kept) (onStore access) := by
  intro state
  rw [Trident.onStore]
  cases access state.store <;> exact fun _ _ => rfl

theorem writeTemp {d : Nat} (other : ¬ kept d) (value : Word) :
    Steps (IrState.Keeps kept) (writeTemp d value : IrStateM σ Unit) :=
  .modify fun _ i unchanged => Function.update_of_ne (fun same : i = d => other (same ▸ unchanged)) ..

theorem exec {node : IrNode} (unwritten : ∀ d, node.dest? = some d → ¬ kept d) (word : Word) :
    Steps (IrState.Keeps kept) (node.exec w word) := by
  cases node with
  | operation d op a b imm name =>
      cases op with
      | const | data | globalAddr | globalL =>
          exact .bind (onStore _) fun _ => writeTemp (unwritten d rfl) _
      | alloc => exact writeTemp (unwritten d rfl) _
      | address | neg | load =>
          exact .bind (readTemp a) fun _ => .bind (onStore _) fun _ => writeTemp (unwritten d rfl) _
      | store => exact .bind (readTemp a) fun _ => .bind (readTemp b) fun _ => onStore _
      | globalS => exact .bind (readTemp b) fun _ => onStore _
      | _ =>
          exact .bind (readTemp a) fun _ => .bind (readTemp b) fun _ =>
            .bind (onStore _) fun _ => writeTemp (unwritten d rfl) _
  | call d name args =>
      exact .bind (readTemps args) fun _ => .bind (onStore _) fun _ => writeTemp (unwritten d rfl) _
  | label | jump | branch | ret => exact .pure _

theorem execNodes {code : List IrNode} (unwritten : ∀ d ∈ dests code, ¬ kept d) (word : Word) :
    Steps (IrState.Keeps kept) (execNodes w word code) := by
  induction code with
  | nil => exact .pure _
  | cons node code ih =>
      refine .bind (exec (fun d dest => unwritten d ?_) word) fun _ => ih fun d member => ?_
      · exact List.mem_filterMap.mpr ⟨node, List.mem_cons_self, dest⟩
      · obtain ⟨other, inside, dest⟩ := List.mem_filterMap.mp member
        exact unwritten d (List.mem_filterMap.mpr ⟨other, List.mem_cons_of_mem _ inside, dest⟩)

end Keeps

end Temporaries

/-! A jump can enter a block behind its declarations, so what the temporaries of the frame hold
is stated for each declaration that was executed, not for the ones in front of the code. -/

section Frame

/-- The declaration with `k` words of the frame before it leaves its address in `d`. -/
def Allocates (nodes : List IrNode) (d k : Nat) : Prop :=
  ∃ before after, nodes = before ++ .operation d .alloc 0 0 :: after ∧ allocCount before = k

theorem Allocates.mem {d k : Nat} (allocates : Allocates nodes d k) :
    .operation d .alloc 0 0 ∈ nodes := by
  obtain ⟨before, after, rfl, _⟩ := allocates
  simp

theorem Standing.allocates {d k : Nat} {rest : List IrNode}
    (standing : Standing nodes [.operation d .alloc 0 0] rest k) : Allocates nodes d k := by
  obtain ⟨before, placed, index⟩ := standing
  exact ⟨before, rest, placed, index⟩

/-- Two nodes of a list are the same one, or one stands behind the other. -/
theorem split_cases {α : Type} {before before' after after' : List α} {a a' : α}
    (same : before ++ a :: after = before' ++ a' :: after') :
    (before = before' ∧ a = a') ∨ (∃ between, before' = before ++ a :: between) ∨
      ∃ between, before = before' ++ a' :: between := by
  obtain ⟨between, rfl, rest⟩ | ⟨between, rfl, rest⟩ := List.append_eq_append_iff.mp same
  all_goals
    cases between with
    | nil =>
        cases rest
        simp
    | cons node between =>
        cases rest
        simp

/-- A word of the frame belongs to one declaration. -/
theorem Allocates.temp_eq {d d' k : Nat} (first : Allocates nodes d k)
    (second : Allocates nodes d' k) : d = d' := by
  obtain ⟨before, after, rfl, index⟩ := first
  obtain ⟨before', after', placed, index'⟩ := second
  obtain ⟨_, same⟩ | ⟨between, rfl⟩ | ⟨between, rfl⟩ := split_cases placed
  · cases same
    rfl
  all_goals
    simp [IrNode.isAlloc] at index index'
    omega

/-- A temporary that is written once belongs to one word of the frame. -/
theorem Allocates.index_eq {d k k' : Nat} (once : (dests nodes).count d ≤ 1)
    (first : Allocates nodes d k) (second : Allocates nodes d k') : k = k' := by
  obtain ⟨before, after, rfl, rfl⟩ := first
  obtain ⟨before', after', placed, rfl⟩ := second
  obtain ⟨rfl, _⟩ | ⟨between, rfl⟩ | ⟨between, rfl⟩ := split_cases placed
  · rfl
  · rw [placed] at once
    simp [dests, IrNode.dest?] at once
    omega
  · simp [dests, IrNode.dest?] at once
    omega

/-- Code that writes no temporary of a declaration, and none of the first `params`. -/
def Isolated (nodes : List IrNode) (params : Nat) (code : List IrNode) : Prop :=
  ∀ d ∈ dests code, params < d ∧ .operation d .alloc 0 0 ∉ nodes

theorem Standing.apart {code rest : List IrNode} {k params t t' : Nat}
    (standing : Standing nodes code rest k) (straight : ∀ node ∈ code, node.Straight)
    (used : TempsUsed t t' code) (low : params ≤ t)
    (once : ∀ d, params < d → (dests nodes).count d ≤ 1) : Isolated nodes params code := by
  intro d written
  have above : t < d := by
    rw [used.dests_eq, List.mem_range'_1] at written
    omega
  refine ⟨by omega, fun declared => ?_⟩
  have twice := once d (by omega)
  obtain ⟨before, rfl, _⟩ := standing
  have inside : 0 < (dests code).count d := List.count_pos_iff.mpr written
  have outside {part : List IrNode} (member : .operation d .alloc 0 0 ∈ part) :
      0 < (dests part).count d :=
    List.count_pos_iff.mpr (List.mem_filterMap.mpr ⟨_, member, rfl⟩)
  rw [dests_append, dests_append, List.count_append, List.count_append] at twice
  simp only [List.mem_append] at declared
  obtain early | own | late := declared
  · have := outside early
    omega
  · exact straight _ own rfl
  · have := outside late
    omega

/-- What the temporaries hold wherever control is: the addresses of the parameters,
and those of all variables whose declarations were executed. -/
structure Held (cell : Nat → Word) (nodes : List IrNode) (params : Nat) (passed : List Nat)
    (temps : Temps) : Prop where
  zero : temps 0 = none
  params : ∀ i < params, temps (i + 1) = some (cell i)
  autos : ∀ d k, Allocates nodes d k → k ∈ passed → temps d = some (cell k)

/-- The visible variables are globals, parameters, and variables whose declarations
were executed. -/
def Shown (w : World σ) (cell : Nat → Word) (nodes : List IrNode) (params : Nat) (vars : Vars)
    (locals : Locals) : Prop :=
  ∀ name lv, vars name = some lv → match lv with
    | .global other => w.global other = locals.env name
    | .local_ d => (∃ i < params, d = i + 1 ∧ cell i = locals.env name) ∨
        ∃ k ∈ locals.passed, Allocates nodes d k ∧ cell k = locals.env name

variable {params : Nat} {vars : Vars} {passed passed' : List Nat} {temps temps' : Temps}
  {locals : Locals}

theorem Held.keep {code : List IrNode} (held : Held cell nodes params passed temps)
    (apart : Isolated nodes params code) (kept : ∀ i, i ∉ dests code → temps' i = temps i) :
    Held cell nodes params passed temps' where
  zero := (kept 0 fun member => Nat.not_lt_zero _ (apart 0 member).1).trans held.zero
  params i small := by
    rw [kept (i + 1) fun member => ?_, held.params i small]
    have := (apart (i + 1) member).1
    omega
  autos d k allocates executed := by
    rw [kept d fun member => (apart d member).2 allocates.mem]
    exact held.autos d k allocates executed

theorem Held.alloc {d k : Nat} (held : Held cell nodes params passed temps)
    (allocates : Allocates nodes d k) (low : params < d) (once : (dests nodes).count d ≤ 1) :
    Held cell nodes params (k :: passed) (Function.update temps d (some (cell k))) where
  zero := by
    rw [Function.update_of_ne (by omega)]
    exact held.zero
  params i small := by
    rw [Function.update_of_ne (by omega)]
    exact held.params i small
  autos d' k' allocates' executed := by
    by_cases same : d' = d
    · subst same
      rw [allocates.index_eq once allocates']
      exact Function.update_self ..
    · rw [Function.update_of_ne same]
      obtain rfl | executed := List.mem_cons.mp executed
      · exact absurd (allocates'.temp_eq allocates) same
      · exact held.autos d' k' allocates' executed

theorem Shown.mono (shown : Shown w cell nodes params vars locals) (subset : locals.passed ⊆ passed) :
    Shown w cell nodes params vars ⟨locals.env, passed⟩ := by
  intro name lv found
  have known := shown name lv found
  cases lv with
  | global => exact known
  | local_ d => exact known.imp_right fun ⟨k, executed, rest⟩ => ⟨k, subset executed, rest⟩

theorem Shown.hide (names : List CStr) (shown : Shown w cell nodes params vars locals) :
    Shown w cell nodes params (vars.hide names) locals := by
  intro name lv found
  rw [Vars.hide] at found
  split at found
  · cases found
  · exact shown name lv found

theorem Shown.bind {d k : Nat} (name : CStr) (shown : Shown w cell nodes params vars locals)
    (allocates : Allocates nodes d k) (executed : k ∈ passed) (subset : locals.passed ⊆ passed) :
    Shown w cell nodes params (vars.bind name (.local_ d))
      ⟨locals.env.bind name (cell k), passed⟩ := by
  intro other lv found
  by_cases same : SameName other name
  · rw [Vars.bind, if_pos same] at found
    cases found
    exact .inr ⟨k, executed, allocates, by simp [Env.bind, same]⟩
  · rw [Vars.bind, if_neg same] at found
    have known := shown.mono subset other lv found
    simpa [Env.bind, same] using known

theorem Shown.represents {t : Nat} (shown : Shown w cell nodes params vars locals)
    (held : Held cell nodes params locals.passed temps) (bounded : VarsUpTo t vars) :
    Represents w vars t temps locals.env := by
  intro name lv found
  have known := shown name lv found
  have between := bounded name lv found
  cases lv with
  | global other => exact ⟨congrArg some known, trivial⟩
  | local_ d =>
      refine ⟨?_, between.2⟩
      obtain ⟨i, small, rfl, same⟩ | ⟨k, executed, allocates, same⟩ := known
      · rw [← same]
        exact held.params i small
      · rw [← same]
        exact held.autos d k allocates executed

end Frame

/-! What a phrase does, wherever control comes from: the rules for expressions, conditions and
loops, and where the parts of a phrase stand among the nodes. -/

/-- What a function's nodes have in common with what was known of them while they
were generated: `g` is the last context, and the first `params` temporaries are
those of the parameters. -/
structure Whole (nodes : List IrNode) (params : Nat) (g : GenState) : Prop where
  numbered : g.Numbered
  once : ∀ id ∈ g.made, nodes.count (.label id) = 1
  written : ∀ d, params < d → (dests nodes).count d ≤ 1

section Phrases

variable {params limit : Nat} {vars : Vars} {passed : List Nat} {locals : Locals} {last : GenState}
  {rest middle : List IrNode} {store : Store σ} {temps : Temps}

/-- Control is at `rest`, with the variables `vars` visible; no declaration was
executed less often than in `passed`. -/
def Arrives (w : World σ) (cell : Nat → Word) (nodes : List IrNode) (params : Nat)
    (rest : List IrNode) (vars : Vars) (passed : List Nat) (locals : Locals) (ahead : List IrNode)
    (state : IrState σ) : Prop :=
  ahead = rest ∧ Shown w cell nodes params vars locals ∧
    Held cell nodes params locals.passed state.temps ∧ passed ⊆ locals.passed

/-- Control is where a jump to a label goes. -/
def Jumps (declared : CStr → Prop) (cell : Nat → Word) (nodes : List IrNode) (params : Nat)
    (last : GenState) (name : CStr) (locals : Locals) (ahead : List IrNode) (state : IrState σ) :
    Prop :=
  declared name ∧ ∃ id, last.named name = some id ∧ ahead = labelTarget id nodes ∧
    Held cell nodes params locals.passed state.temps

/-- From `ahead`, the nodes do what led to the ending of a phrase. -/
abbrev Does (declared : CStr → Prop) (w : World σ) (cell : Nat → Word) (nodes : List IrNode)
    (params : Nat) (last : GenState) (limit : Nat) (ahead : List IrNode) (temps : Temps)
    (exits : Locals → List IrNode → IrState σ → Prop) (run : StoreM σ Ending) (store : Store σ) :
    Prop :=
  Performs (irStep w cell nodes) IrState.store (· = .undefined)
    (Jumps declared cell nodes params last) limit ahead ⟨temps, store⟩ exits (run store)

variable {declared : CStr → Prop} {exits : Locals → List IrNode → IrState σ → Prop}

/-- The code of an expression, before code that goes on with its value. -/
theorem Does.expr {node : AstNode} {t t' a : Nat} {code : List IrNode}
    {next : Word → StoreM σ Ending} (lowers : Lowers vars (.expr node) t code (.temp a) t')
    (bounded : VarsUpTo t vars) (apart : Isolated nodes params code)
    (shown : Shown w cell nodes params vars locals)
    (held : Held cell nodes params locals.passed temps)
    (later : ∀ value temps' store', temps' a = some value →
      Held cell nodes params locals.passed temps' →
      Does declared w cell nodes params last limit middle temps' exits (next value) store') :
    Does declared w cell nodes params last limit (code ++ middle) temps exits
      (evalExpr w locals.env node >>= next) store := by
  have delivered := lowers.delivers 0 (shown.represents held bounded) store _ rfl
  have keeps : Steps (IrState.Keeps (· ∉ dests code)) (execNodes w 0 code) :=
    Keeps.execNodes (fun d member unwritten => unwritten member) 0
  rw [Does]
  cases ran : evalExpr w locals.env node store with
  | ok value store' =>
      rw [ran] at delivered
      obtain ⟨_, ⟨temps', _⟩, followed, rfl, given, _⟩ := delivered
      rw [bind_run_of_ok ran]
      exact .after_path (path_straight lowers.straight middle followed)
        (later value temps' _ given.1 (held.keep apart (keeps.of_ok followed)))
  | error halt store' =>
      rw [ran] at delivered
      obtain impossible | ⟨⟨temps', _⟩, followed, rfl⟩ := delivered
      · exact impossible.elim
      · rw [bind_run_of_error ran]
        exact .inr ⟨_, ends_straight lowers.straight middle followed, rfl⟩

/-- The code of a condition, before a branch on its value. -/
theorem Does.condition {node : AstNode} {t t' a id idF : Nat} {code yes no : List IrNode}
    {onTrue onFalse : StoreM σ Ending} (lowers : Lowers vars (.expr node) t code (.temp a) t')
    (bounded : VarsUpTo t vars) (apart : Isolated nodes params code)
    (shown : Shown w cell nodes params vars locals)
    (held : Held cell nodes params locals.passed temps)
    (target : labelTarget id nodes = yes) (targetF : labelTarget idF nodes = no)
    (holds : ∀ temps' store', Held cell nodes params locals.passed temps' →
      Does declared w cell nodes params last limit yes temps' exits onTrue store')
    (fails : ∀ temps' store', Held cell nodes params locals.passed temps' →
      Does declared w cell nodes params last limit no temps' exits onFalse store') :
    Does declared w cell nodes params last limit (code ++ .branch id idF a :: middle) temps exits
      (evalCondition w locals.env node >>= fun holds => if holds then onTrue else onFalse) store := by
  have evaluated : (evalCondition w locals.env node >>= fun holds =>
      if holds then onTrue else onFalse) store = (evalExpr w locals.env node >>= fun value =>
        testWord value >>= fun holds => if holds then onTrue else onFalse) store := by
    rw [evalCondition, bind_run, bind_run, bind_run]
    cases evalExpr w locals.env node store <;> rfl
  rw [Does, evaluated]
  refine expr lowers bounded apart shown held fun value temps' store' given held' => ?_
  have step : irStep w cell nodes (.branch id idF a :: middle) ⟨temps', store'⟩ =
      .ok (.more (labelTarget (if decide (value ≠ 0) then id else idF) nodes))
        ⟨temps', store'.log (.test value)⟩ := by
    change (readTemp a >>= fun value => _) _ = _
    rw [bind_run_of_ok (readTemp_some given)]
    rfl
  refine .after_path (.one step) ?_
  change Does declared w cell nodes params last limit _ _ exits
    (if decide (value ≠ 0) then onTrue else onFalse) (store'.log (.test value))
  cases decide (value ≠ 0) with
  | true => exact target ▸ holds temps' _ held'
  | false => exact targetF ▸ fails temps' _ held'

theorem Arrives.mono {locals' : Locals} {passed' : List Nat} {state : IrState σ} {ahead : List IrNode}
    (arrives : Arrives w cell nodes params rest vars passed locals' ahead state)
    (subset : passed' ⊆ passed) :
    Arrives w cell nodes params rest vars passed' locals' ahead state :=
  ⟨arrives.1, arrives.2.1, arrives.2.2.1, List.Subset.trans subset arrives.2.2.2⟩

/-- A loop, from its label on. -/
theorem Does.loop {condition : AstNode} {t t' a start yes no : Nat} {code inner : List IrNode}
    (tail : List IrNode) {body : Locals → StoreM σ Ending} (lowers : Lowers vars (.expr condition) t code (.temp a) t')
    (bounded : VarsUpTo t vars) (apart : Isolated nodes params code)
    (again : labelTarget start nodes = .label start :: (code ++ .branch yes no a :: middle))
    (entered : labelTarget yes nodes = .label yes :: inner)
    (left : labelTarget no nodes = .label no :: rest)
    (turn : ∀ locals temps store, Shown w cell nodes params vars locals →
      Held cell nodes params locals.passed temps →
      Does declared w cell nodes params last limit inner temps
        (Arrives w cell nodes params (.jump start :: tail) vars locals.passed) (body locals) store)
    (shown : Shown w cell nodes params vars locals)
    (held : Held cell nodes params locals.passed temps) :
    Does declared w cell nodes params last limit
      (.label start :: (code ++ .branch yes no a :: middle)) temps
      (Arrives w cell nodes params rest vars locals.passed) (runLoop w limit condition body locals)
      store := by
  refine Performs.loop limit (fun locals' (state : IrState σ) =>
    Shown w cell nodes params vars locals' ∧ Held cell nodes params locals'.passed state.temps ∧
      locals.passed ⊆ locals'.passed) ?_ limit (Nat.le_refl _) locals ⟨temps, store⟩
      ⟨shown, held, List.Subset.refl _⟩
  intro next less le resume locals' ⟨temps', store'⟩ ⟨shown', held', subset⟩
  refine Performs.of_path (.one rfl) ?_
  refine Does.condition lowers bounded apart shown' held' entered left ?_ ?_
  · intro temps'' store'' held''
    refine Performs.after_path (.one rfl) ?_
    refine Performs.andThen ((turn locals' temps'' store'' shown' held'').mono le
      fun _ _ _ arrives => arrives) ?_
    rintro inside ahead ⟨temps₃, store₃⟩ ⟨rfl, shown₃, held₃, subset₃⟩
    refine Performs.after_path (.one rfl) ?_
    exact again ▸ resume inside ⟨temps₃, store₃⟩ ⟨shown₃, held₃, List.Subset.trans subset subset₃⟩
  · intro temps'' store'' held''
    exact ⟨1, rest, ⟨temps'', store''⟩, .one rfl, rfl, rfl, shown', held'', subset⟩

end Phrases

/-- The execution of a phrase, jumps included. -/
def runPhrase (w : World σ) (cell : Nat → Word) (limit : Nat) :
    ScopePhrase → Nat → Locals → StoreM σ Ending
  | .stmt node, k, locals => runStatement w cell limit node k locals
  | .stmts nodes, k, locals => runStatements w cell limit nodes k locals
  | .block _ body, k, locals =>
      Exit.andThen (runStatements w cell limit body k locals) fun inner =>
        return .done (locals.leave inner)
  | .chain rest, k, locals => runChain w cell limit rest k locals

section Layout

variable {k start yes no out c : Nat} {code body chain rest : List IrNode}

/-- Where the parts of a loop stand. -/
theorem Standing.while_ (standing : Standing nodes (.label start :: (code ++
      .branch yes no c :: .label yes :: (body ++ [.jump start, .label no]))) rest k)
    (straight : ∀ node ∈ code, node.Straight)
    (once : ∀ id ∈ [start, yes, no], nodes.count (.label id) = 1) :
    labelTarget start nodes = .label start :: (code ++
      .branch yes no c :: .label yes :: (body ++ .jump start :: .label no :: rest)) ∧
    labelTarget yes nodes = .label yes :: (body ++ .jump start :: .label no :: rest) ∧
    labelTarget no nodes = .label no :: rest ∧
    Standing nodes code (.branch yes no c :: .label yes :: (body ++ .jump start :: .label no :: rest)) k ∧
    Standing nodes body (.jump start :: .label no :: rest) k := by
  have counted := allocCount_straight straight
  have grouped : Standing nodes (([.label start] ++ code) ++ ([.branch yes no c] ++
      ([.label yes] ++ (body ++ ([.jump start] ++ [.label no]))))) rest k := by
    simpa using standing
  have tested := grouped.later.later
  refine ⟨?_, ?_, tested.later.later.later.target (once no (by simp)), ?_, ?_⟩
  · simpa using standing.target (once start (by simp))
  · simpa using tested.target (once yes (by simp))
  · simpa [IrNode.isAlloc] using grouped.first.later
  · simpa [counted, IrNode.isAlloc] using tested.later.first

/-- Where the parts of a branch of a chain stand. -/
theorem Standing.elseIf (standing : Standing nodes (code ++
      .branch yes no c :: .label yes :: (body ++ .jump out :: .label no :: chain)) rest k)
    (straight : ∀ node ∈ code, node.Straight)
    (once : ∀ id ∈ [yes, no], nodes.count (.label id) = 1) :
    labelTarget yes nodes = .label yes :: (body ++ .jump out :: .label no :: (chain ++ rest)) ∧
    labelTarget no nodes = .label no :: (chain ++ rest) ∧
    Standing nodes code (.branch yes no c :: .label yes ::
      (body ++ .jump out :: .label no :: (chain ++ rest))) k ∧
    Standing nodes body (.jump out :: .label no :: (chain ++ rest)) k ∧
    Standing nodes chain rest (k + allocCount body) := by
  have counted := allocCount_straight straight
  have grouped : Standing nodes (code ++ ([.branch yes no c] ++ ([.label yes] ++ (body ++
      ([.jump out] ++ ([.label no] ++ chain)))))) rest k := by
    simpa using standing
  have tested := grouped.later.later
  refine ⟨?_, tested.later.later.later.target (once no (by simp)), ?_, ?_, ?_⟩
  · simpa using tested.target (once yes (by simp))
  · simpa using grouped.first
  · simpa [counted, IrNode.isAlloc] using tested.later.first
  · simpa [counted, IrNode.isAlloc] using tested.later.later.later.later

end Layout

/-! A phrase from its beginning, by induction on how it was generated. -/

section Running

variable {declared : CStr → Prop} {params : Nat} {last : GenState} {phrase : ScopePhrase}
  {g g' : GenState} {code : List (IrNode × List Nat)} {endLable : Nat}

theorem Lowers.apart {vars : Vars} {node : AstNode} {t t' a k : Nat} {code rest : List IrNode}
    (lowers : Lowers vars (.expr node) t code (.temp a) t') (whole : Whole nodes params last)
    (bounded : VarsUpTo t vars) (low : params ≤ t) (standing : Standing nodes code rest k) :
    Isolated nodes params code :=
  standing.apart lowers.straight (lowers.tempsUsed bounded).1 low whole.written

theorem GenState.number_vars (g : GenState) (name : CStr) : (g.number name).2.vars = g.vars := by
  unfold GenState.number
  split <;> rfl

/-- The code of a phrase does what its execution does. -/
theorem Generates.does (cell : Nat → Word) (limit : Nat)
    (generates : Generates declared endLable phrase g code g')
    (given : ∀ name, declared name → name.isSome) (whole : Whole nodes params last)
    (numbered : g.Numbered) (bounded : VarsUpTo g.temps g.vars) (low : params ≤ g.temps)
    (later : GenState.Later g' last) {rest : List IrNode} {k : Nat}
    (standing : Standing nodes (code.map Prod.fst) rest k)
    (ends : ∀ chain, phrase = .chain chain → labelTarget endLable nodes = rest)
    {temps : Temps} {locals : Locals} (shown : Shown w cell nodes params g.vars locals)
    (held : Held cell nodes params locals.passed temps) (store : Store σ) :
    Does declared w cell nodes params last limit (code.map Prod.fst ++ rest) temps
      (Arrives w cell nodes params rest g'.vars locals.passed)
      (runPhrase w cell limit phrase k locals) store := by
  induction generates generalizing rest k temps locals store with
  | @return_ _ _ _ _ a _ lowers =>
      rw [mark_fst] at standing ⊢
      rw [List.append_assoc]
      have apart := lowers.apart whole bounded low standing.first
      refine Does.expr lowers bounded apart shown held fun value temps' store' found held' => ?_
      have used : a ≠ 0 := by
        rintro rfl
        rw [held'.zero] at found
        cases found
      exact ⟨_, ⟨0, _, _, .refl, irStep_ret used found⟩, rfl⟩
  | expr lowers =>
      rw [mark_fst] at standing ⊢
      have apart := lowers.apart whole bounded low standing
      exact Does.expr lowers bounded apart shown held fun value temps' store' found held' =>
        ⟨0, rest, ⟨temps', store'⟩, .refl, rfl, rfl, shown, held', List.Subset.refl _⟩
  | @auto _ name _ g =>
      have allocates := standing.allocates
      have subset : locals.passed ⊆ k :: locals.passed := List.subset_cons_self k _
      exact ⟨1, rest, _, .one standing.irStep_alloc, rfl, rfl,
        shown.bind name allocates List.mem_cons_self subset,
        held.alloc allocates (Nat.lt_succ_of_le low) (whole.written _ (Nat.lt_succ_of_le low)), subset⟩
  | extrn | nil | noChain =>
      exact ⟨0, rest, ⟨temps, store⟩, .refl, rfl, rfl, shown, held, List.Subset.refl _⟩
  | @lable _ name g known =>
      exact ⟨1, rest, ⟨temps, store⟩, .one rfl, rfl, rfl, (g.number_vars name).symm ▸ shown, held,
        List.Subset.refl _⟩
  | @goto _ name g known =>
      have number := later.named _ _ (g.number_named (given name known))
      exact ⟨1, _, ⟨temps, store⟩, .one rfl, rfl, known, _, number, rfl, held⟩
  | scope _ ih | else_ _ ih =>
      exact ih numbered bounded low later standing (fun _ same => by cases same) shown held store
  | @if_ _ _ _ _ g code g' generates ih =>
      have made : g.lables + 1 ∈ g'.made :=
        (generates.numbering (numbered.make 1)).2.made.subset (by simp [GenState.make, Trail.make])
      rw [List.map_append, mark_fst] at standing ⊢
      rw [List.append_assoc]
      have target := standing.later.target (whole.once _ (later.made.subset made))
      have chain := ih (numbered.make 1) bounded low later standing.first (fun _ _ => target) shown
        held store
      refine chain.path_after fun inside ahead state arrives => ?_
      obtain ⟨rfl, shown', held', subset⟩ := arrives
      exact ⟨1, rest, state, .one rfl, rfl, rfl, shown', held', subset⟩
  | @while_ _ condition scopeN body g code c t bodyCode g' lowers generates ih =>
      have made := (generates.numbering ((numbered.make 3).of_eq rfl rfl rfl)).2.made.subset
      have once : ∀ id ∈ [g.lables + 1, g.lables + 2, g.lables + 3], nodes.count (.label id) = 1 :=
        fun id member => whole.once id (later.made.subset (made (List.mem_append_right _ member)))
      simp only [List.map_append, mark_fst, List.append_assoc, List.cons_append,
        List.nil_append] at standing ⊢
      obtain ⟨start, entered, left, tested, inner⟩ := standing.while_ lowers.straight once
      have apart := lowers.apart whole bounded low tested
      have vars : g'.vars = g.vars := (generates.scope_eq rfl).1
      rw [vars] at ih ⊢
      refine Does.loop (.label (g.lables + 3) :: rest) lowers bounded apart start entered left ?_ shown held
      intro locals' temps' store' shown' held'
      exact ih ((numbered.make 3).of_eq rfl rfl rfl) (bounded.mono lowers.le)
        (Nat.le_trans low lowers.le) later inner (fun _ same => by cases same) shown' held' store'
  | @cons _ node nodes' g code middle code' g' first second firstIH restIH =>
      obtain ⟨numbered', _⟩ := first.numbering numbered
      obtain ⟨_, later'⟩ := second.numbering numbered'
      rw [List.map_append] at standing ⊢
      rw [List.append_assoc]
      refine Performs.andThen (firstIH numbered bounded low (later'.trans later) standing.first
        (fun _ same => by cases same) shown held store) fun inside ahead state arrives => ?_
      obtain ⟨rfl, shown', held', subset⟩ := arrives
      have standing' := standing.later
      rw [first.count_allocs] at standing'
      refine (restIH numbered' (first.tempsUsed bounded).2 (Nat.le_trans low first.temps_le) later
        standing' (fun _ same => by cases same) shown' held' state.store).mono (Nat.le_refl _) ?_
      exact fun _ _ _ arrives => arrives.mono subset
  | @block _ _ _ g g' _ generates ih =>
      refine Performs.andThen (ih (numbered.of_eq rfl rfl rfl) bounded.hide low
        ⟨later.lables_le, later.named, later.new_named, later.made⟩ standing
        (fun _ same => by cases same) (shown.hide _) held store) fun inside ahead state arrives => ?_
      obtain ⟨rfl, _, held', subset⟩ := arrives
      exact ⟨0, _, state, .refl, rfl, rfl, shown.mono subset, held', subset⟩
  | @elseIf endLable condition scopeN body chain g code c t bodyCode middle chainCode g' lowers
      generates chained bodyIH chainIH =>
      obtain ⟨numbered', made⟩ := generates.numbering ((numbered.make 2).of_eq rfl rfl rfl)
      have later' := (chained.numbering numbered').2.trans later
      have once : ∀ id ∈ [g.lables + 1, g.lables + 2], nodes.count (.label id) = 1 :=
        fun id member => whole.once id (later'.made.subset (made.made.subset
          (List.mem_append_right _ member)))
      simp only [List.map_append, mark_fst, List.append_assoc, List.cons_append,
        List.nil_append] at standing ⊢
      obtain ⟨entered, skipped, tested, inner, final⟩ := standing.elseIf lowers.straight once
      rw [generates.count_allocs] at final
      have apart := lowers.apart whole bounded low tested
      have vars : middle.vars = g.vars := (generates.scope_eq rfl).1
      have vars' : g'.vars = middle.vars := (chained.scope_eq rfl).1
      have bounded' := bounded.mono lowers.le
      have low' := Nat.le_trans low lowers.le
      refine Does.condition lowers bounded apart shown held entered skipped ?_ ?_
      · intro temps' store' held'
        refine Performs.after_path (.one rfl) ?_
        refine Performs.path_after (bodyIH ((numbered.make 2).of_eq rfl rfl rfl) bounded' low' later'
          inner (fun _ same => by cases same) shown held' store') fun inside ahead state arrives => ?_
        obtain ⟨rfl, shown', held'', subset⟩ := arrives
        exact ⟨1, rest, state, .one (by rw [← ends _ rfl]; rfl), rfl, rfl, vars' ▸ shown', held'', subset⟩
      · intro temps' store' held'
        refine Performs.after_path (.one rfl) ?_
        exact chainIH numbered' (generates.tempsUsed bounded').2
          (Nat.le_trans low' generates.temps_le) later final (fun _ _ => ends _ rfl)
          (vars ▸ shown) held' store'

end Running

/-! A phrase that a jump enters at a label. The induction finds the first label with the name, as
the source does, and goes on with `Generates.does` behind it. -/

/-- The execution of a phrase from the first label `name` in it on. -/
def landPhrase (w : World σ) (cell : Nat → Word) (limit : Nat) (name : CStr) :
    ScopePhrase → Nat → Locals → Option (StoreM σ Ending)
  | .stmt node, k, locals => landStatement w cell limit name node k locals
  | .stmts nodes, k, locals => landStatements w cell limit name nodes k locals
  | .block _ body, k, locals => (landStatements w cell limit name body k locals).map fun run =>
      Exit.andThen run fun inner => return .done (locals.leave inner)
  | .chain rest, k, locals => landChain w cell limit name rest k locals

section Landing

variable {declared : CStr → Prop} {params limit id : Nat} {last : GenState} {vars vars' : Vars}
  {code code' ahead : List IrNode} {exits exits' : List Nat → Locals → List IrNode → IrState σ → Prop}
  {land land' : Locals → Option (StoreM σ Ending)}

/-- The first label `id` in the code is where `land` enters it. -/
def Lands (declared : CStr → Prop) (w : World σ) (cell : Nat → Word) (nodes : List IrNode)
    (params : Nat) (last : GenState) (limit id : Nat) (code ahead : List IrNode) (vars : Vars)
    (exits : List Nat → Locals → List IrNode → IrState σ → Prop)
    (land : Locals → Option (StoreM σ Ending)) : Prop :=
  (.label id ∉ code ∧ ∀ locals, land locals = none) ∨
    ∃ before after, code = before ++ .label id :: after ∧ .label id ∉ before ∧
      ∀ locals, ∃ run, land locals = some run ∧ ∀ temps store,
        Shown w cell nodes params vars locals → Held cell nodes params locals.passed temps →
        Does declared w cell nodes params last limit (after ++ ahead) temps (exits locals.passed)
          run store

namespace Lands

theorem nowhere (absent : .label id ∉ code) (nothing : ∀ locals, land locals = none) :
    Lands declared w cell nodes params last limit id code ahead vars exits land :=
  .inl ⟨absent, nothing⟩

/-- What follows the code that was entered, for locals that `moved` gives. -/
theorem map (moved : Locals → Locals) {next : Locals → StoreM σ Ending → StoreM σ Ending}
    (lands : Lands declared w cell nodes params last limit id code ahead vars exits land)
    (onward : ∀ locals run ahead temps store, Shown w cell nodes params vars' locals →
      Held cell nodes params locals.passed temps →
      (Shown w cell nodes params vars (moved locals) →
        Held cell nodes params (moved locals).passed temps →
        Does declared w cell nodes params last limit ahead temps (exits (moved locals).passed) run
          store) →
      Does declared w cell nodes params last limit ahead temps (exits' locals.passed)
        (next locals run) store) :
    Lands declared w cell nodes params last limit id code ahead vars' exits'
      (fun locals => (land (moved locals)).map (next locals)) := by
  obtain ⟨absent, nothing⟩ | ⟨before, after, placed, absent, found⟩ := lands
  · exact .inl ⟨absent, fun locals => by simp [nothing]⟩
  · refine .inr ⟨before, after, placed, absent, fun locals => ?_⟩
    obtain ⟨run, landed, does⟩ := found (moved locals)
    exact ⟨next locals run, by simp [landed], fun temps store shown held =>
      onward locals run _ temps store shown held (does temps store)⟩

/-- Steps that the machine takes behind the code that was entered. -/
theorem path_after
    (lands : Lands declared w cell nodes params last limit id code ahead vars exits land)
    (onward : ∀ passed locals b t, exits passed locals b t → ∃ n c v,
      Path (irStep w cell nodes) n b t c v ∧ v.store = t.store ∧ exits' passed locals c v) :
    Lands declared w cell nodes params last limit id code ahead vars exits' land := by
  obtain nowhere | ⟨before, after, placed, absent, found⟩ := lands
  · exact .inl nowhere
  · refine .inr ⟨before, after, placed, absent, fun locals => ?_⟩
    obtain ⟨run, landed, does⟩ := found locals
    exact ⟨run, landed, fun temps store shown held =>
      (does temps store shown held).path_after (onward locals.passed)⟩

/-- Code without the label in front. -/
theorem skip {front : List IrNode} (absent : .label id ∉ front)
    (lands : Lands declared w cell nodes params last limit id code ahead vars exits land) :
    Lands declared w cell nodes params last limit id (front ++ code) ahead vars exits land := by
  obtain ⟨absent', nothing⟩ | ⟨before, after, rfl, absent', found⟩ := lands
  · exact .inl ⟨by simp [absent, absent'], nothing⟩
  · exact .inr ⟨front ++ before, after, by simp, by simp [absent, absent'], found⟩

theorem or (first : Lands declared w cell nodes params last limit id code (code' ++ ahead) vars exits
      land)
    (second : Lands declared w cell nodes params last limit id code' ahead vars exits land') :
    Lands declared w cell nodes params last limit id (code ++ code') ahead vars exits
      (fun locals => (land locals).or (land' locals)) := by
  obtain ⟨absent, nothing⟩ | ⟨before, after, rfl, absent, found⟩ := first
  · have same : (fun locals => (land locals).or (land' locals)) = land' :=
      funext fun locals => by rw [nothing, Option.none_or]
    rw [same]
    exact second.skip absent
  · refine .inr ⟨before, after ++ code', by simp, absent, fun locals => ?_⟩
    obtain ⟨run, landed, does⟩ := found locals
    rw [List.append_assoc]
    exact ⟨run, by simp [landed], does⟩

/-- Code without the label behind. -/
theorem followed {back : List IrNode} (absent : .label id ∉ back)
    (lands : Lands declared w cell nodes params last limit id code (back ++ ahead) vars exits land) :
    Lands declared w cell nodes params last limit id (code ++ back) ahead vars exits land := by
  have nothing : Lands declared w cell nodes params last limit id back ahead vars exits
      (fun _ => none) := nowhere absent fun _ => rfl
  simpa using lands.or nothing

end Lands

end Landing

section Running

variable {declared : CStr → Prop} {params : Nat} {last : GenState} {phrase : ScopePhrase}
  {g g' : GenState} {code : List (IrNode × List Nat)} {endLable : Nat}

private theorem label_absent {id : Nat} {code : List IrNode} (straight : ∀ node ∈ code, node.Straight) :
    .label id ∉ code := fun member => straight _ member

/-- The code of a phrase, entered at a label, does what the execution from there on does. -/
theorem Generates.lands (w : World σ) (cell : Nat → Word) (limit : Nat)
    (generates : Generates declared endLable phrase g code g')
    (given : ∀ name, declared name → name.isSome) (whole : Whole nodes params last)
    (numbered : g.Numbered) (bounded : VarsUpTo g.temps g.vars) (low : params ≤ g.temps)
    (later : GenState.Later g' last) {rest : List IrNode} {k : Nat}
    (standing : Standing nodes (code.map Prod.fst) rest k)
    (ends : ∀ chain, phrase = .chain chain → labelTarget endLable nodes = rest)
    {name : CStr} {id : Nat} (known : last.named name = some id) :
    Lands declared w cell nodes params last limit id (code.map Prod.fst) rest g.vars
      (Arrives w cell nodes params rest g'.vars) (landPhrase w cell limit name phrase k) := by
  have other {made : Nat} (member : made ∈ last.made) : made ≠ id := fun same =>
    whole.numbered.apart name id known (same ▸ member)
  induction generates generalizing rest k with
  | return_ lowers =>
      rw [mark_fst]
      exact .nowhere (by simp [label_absent lowers.straight]) fun _ => rfl
  | expr lowers =>
      rw [mark_fst]
      exact .nowhere (label_absent lowers.straight) fun _ => rfl
  | auto | goto => exact .nowhere (by simp) fun _ => rfl
  | extrn | nil | noChain => exact .nowhere List.not_mem_nil fun _ => rfl
  | @lable _ stored g known' =>
      have number := later.named _ _ (g.number_named (given stored known'))
      rw [mark_fst, g.number_vars]
      by_cases same : SameName name stored
      · rw [whole.numbered.same name stored same, number] at known
        cases known
        refine .inr ⟨[], [], rfl, List.not_mem_nil, fun locals => ?_⟩
        exact ⟨_, if_pos same, fun temps store shown held => ⟨0, rest, ⟨temps, store⟩, .refl, rfl, rfl,
          shown, held, List.Subset.refl _⟩⟩
      · refine .nowhere ?_ fun _ => if_neg same
        rintro member
        cases List.mem_singleton.mp member
        exact same (whole.numbered.injective name stored _ known number)
  | scope _ ih | else_ _ ih =>
      exact ih numbered bounded low later standing (fun _ same => by cases same)
  | @if_ _ _ _ _ g code g' generates ih =>
      have made : g.lables + 1 ∈ last.made := later.made.subset
        ((generates.numbering (numbered.make 1)).2.made.subset (by simp [GenState.make, Trail.make]))
      rw [List.map_append, mark_fst] at standing ⊢
      have target := standing.later.target (whole.once _ made)
      have chain := ih (numbered.make 1) bounded low later standing.first (fun _ _ => target)
      refine .followed (by simpa using (other made).symm) (chain.path_after ?_)
      rintro passed inside ahead state ⟨rfl, shown, held, subset⟩
      exact ⟨1, rest, state, .one rfl, rfl, rfl, shown, held, subset⟩
  | @while_ _ condition scopeN body g code c t bodyCode g' lowers generates ih =>
      have made := (generates.numbering ((numbered.make 3).of_eq rfl rfl rfl)).2.made.subset
      have known' : ∀ id ∈ [g.lables + 1, g.lables + 2, g.lables + 3], id ∈ last.made :=
        fun id member => later.made.subset (made (List.mem_append_right _ member))
      have absent : ∀ i ∈ [g.lables + 1, g.lables + 2, g.lables + 3], id ≠ i :=
        fun i member => (other (known' i member)).symm
      simp only [List.map_append, mark_fst, List.append_assoc, List.cons_append,
        List.nil_append] at standing ⊢
      obtain ⟨start, entered, left, tested, inner⟩ := standing.while_ lowers.straight
        fun id member => whole.once id (known' id member)
      have apart := lowers.apart whole bounded low tested
      have vars : g'.vars = g.vars := (generates.scope_eq rfl).1
      have bounded' := bounded.mono lowers.le
      have low' := Nat.le_trans low lowers.le
      have body := ih ((numbered.make 3).of_eq rfl rfl rfl) bounded' low' later inner
        (fun _ same => by cases same)
      rw [vars] at body ⊢
      have split : .label (g.lables + 1) :: (code ++ .branch (g.lables + 2) (g.lables + 3) c ::
          .label (g.lables + 2) :: (bodyCode.map Prod.fst ++
            [.jump (g.lables + 1), .label (g.lables + 3)])) =
          (.label (g.lables + 1) :: code ++ [.branch (g.lables + 2) (g.lables + 3) c,
            .label (g.lables + 2)]) ++ (bodyCode.map Prod.fst ++
              [.jump (g.lables + 1), .label (g.lables + 3)]) := by simp
      rw [split]
      refine .skip (by simp [label_absent lowers.straight, absent]) (.followed (by simp [absent]) ?_)
      refine body.map (fun locals => locals) fun locals run ahead temps store shown held does => ?_
      refine (does shown held).andThen fun inside ahead state arrives => ?_
      obtain ⟨rfl, shown', held', subset⟩ := arrives
      refine .after_path (.one rfl) (start ▸ ?_)
      refine (Does.loop (.label (g.lables + 3) :: rest) lowers bounded apart start entered left ?_
        shown' held').mono (Nat.le_refl _) fun _ _ _ arrives => arrives.mono subset
      intro locals' temps' store' shown' held'
      have ran := generates.does cell limit given whole ((numbered.make 3).of_eq rfl rfl rfl) bounded'
        low' later inner (fun _ same => by cases same) shown' held' store'
      rw [vars] at ran
      exact ran
  | @cons _ node nodes' g code middle code' g' first second firstIH restIH =>
      obtain ⟨numbered', _⟩ := first.numbering numbered
      have later' := (second.numbering numbered').2.trans later
      have bounded' := (first.tempsUsed bounded).2
      have low' := Nat.le_trans low first.temps_le
      rw [List.map_append] at standing ⊢
      have standing' := standing.later
      rw [first.count_allocs] at standing'
      have firstLands := firstIH numbered bounded low later' standing.first
        (fun _ same => by cases same)
      have restLands := restIH numbered' bounded' low' later standing' (fun _ same => by cases same)
      refine .or (firstLands.map (fun locals => locals)
        fun locals run ahead temps store shown held does => ?_) ?_
      · refine (does shown held).andThen fun inside ahead state arrives => ?_
        obtain ⟨rfl, shown', held', subset⟩ := arrives
        have ran := second.does cell limit given whole numbered' bounded' low' later standing'
          (fun _ same => by cases same) shown' held' state.store
        exact ran.mono (Nat.le_refl _) fun _ _ _ arrives => arrives.mono subset
      · cases node with
        | auto stored size =>
            cases first
            refine restLands.map (fun locals => ⟨locals.env.bind stored (cell k), locals.passed⟩)
              fun locals run ahead temps store shown held does => ?_
            by_cases executed : k ∈ locals.passed
            · rw [if_pos executed]
              refine does (shown.bind stored ?_ executed (List.Subset.refl _)) held
              exact standing.first.allocates
            · rw [if_neg executed]
              exact .inl rfl
        | _ =>
            rw [(first.scope_eq rfl).1] at restLands
            exact restLands
  | @block _ _ _ g g' _ generates ih =>
      have inner := ih (numbered.of_eq rfl rfl rfl) bounded.hide low
        ⟨later.lables_le, later.named, later.new_named, later.made⟩ standing
        (fun _ same => by cases same)
      refine inner.map (fun locals => locals) fun locals run ahead temps store shown held does => ?_
      refine (does (shown.hide _) held).andThen fun inside ahead state arrives => ?_
      obtain ⟨rfl, _, held', subset⟩ := arrives
      exact ⟨0, _, state, .refl, rfl, rfl, shown.mono subset, held', subset⟩
  | @elseIf endLable condition scopeN body chain g code c t bodyCode middle chainCode g' lowers
      generates chained bodyIH chainIH =>
      obtain ⟨numbered', made⟩ := generates.numbering ((numbered.make 2).of_eq rfl rfl rfl)
      have later' := (chained.numbering numbered').2.trans later
      have known' : ∀ id ∈ [g.lables + 1, g.lables + 2], id ∈ last.made := fun id member =>
        later'.made.subset (made.made.subset (List.mem_append_right _ member))
      have absent : ∀ i ∈ [g.lables + 1, g.lables + 2], id ≠ i :=
        fun i member => (other (known' i member)).symm
      simp only [List.map_append, mark_fst, List.append_assoc, List.cons_append,
        List.nil_append] at standing ⊢
      obtain ⟨_, _, _, inner, final⟩ := standing.elseIf lowers.straight
        fun id member => whole.once id (known' id member)
      rw [generates.count_allocs] at final
      have vars : middle.vars = g.vars := (generates.scope_eq rfl).1
      have vars' : g'.vars = middle.vars := (chained.scope_eq rfl).1
      have bounded' := bounded.mono lowers.le
      have low' := Nat.le_trans low lowers.le
      have bodyLands := bodyIH ((numbered.make 2).of_eq rfl rfl rfl) bounded' low' later' inner
        (fun _ same => by cases same)
      have chainLands := chainIH numbered' (generates.tempsUsed bounded').2
        (Nat.le_trans low' generates.temps_le) later final (fun _ _ => ends _ rfl)
      rw [vars'] at chainLands ⊢
      rw [vars] at bodyLands chainLands ⊢
      have split : code ++ .branch (g.lables + 1) (g.lables + 2) c :: .label (g.lables + 1) ::
          (bodyCode.map Prod.fst ++ .jump endLable :: .label (g.lables + 2) ::
            chainCode.map Prod.fst) =
          (code ++ [.branch (g.lables + 1) (g.lables + 2) c, .label (g.lables + 1)]) ++
            (bodyCode.map Prod.fst ++ ([.jump endLable, .label (g.lables + 2)] ++
              chainCode.map Prod.fst)) := by simp
      rw [split]
      refine .skip (by simp [label_absent lowers.straight, absent])
        (.or (bodyLands.path_after ?_) (.skip (by simp [absent]) chainLands))
      rintro passed inside ahead state ⟨rfl, shown, held, subset⟩
      exact ⟨1, rest, state, .one (by rw [← ends _ rfl]; rfl), rfl, rfl, shown, held, subset⟩

end Running

/-! The whole function: its body is entered anew at a label after each jump. -/

section Function

variable {params temps : Nat} {vars : Vars} {scopeN : AstScope} {body : List AstNode}
  {code : List (IrNode × List Nat)} {g : GenState} {env : Env} {args : List Word}

theorem FunctionCode.whole (function : FunctionCode params vars scopeN body nodes temps code g)
    (bounded : VarsUpTo params vars) : Whole nodes params g where
  numbered := (function.generates.numbering (entry_numbered params vars)).1
  once := (function.wellFormed bounded).made_once
  written d low := by
    by_cases high : d ≤ temps
    · exact Nat.le_of_eq ((function.wellFormed bounded).written_once d low high)
    · rw [List.count_eq_zero.mpr fun member => high ?_]
      · exact Nat.zero_le 1
      obtain ⟨node, inside, dest⟩ := List.mem_filterMap.mp member
      exact ((function.wellFormed bounded).mentioned node inside d (by simp [IrNode.mentions, dest])).2

/-- A label is where a jump to it goes if none before it has its number. -/
private theorem labelTarget_first {before rest : List IrNode} {id : Nat} (absent : .label id ∉ before)
    (placed : nodes = before ++ .label id :: rest) : labelTarget id nodes = .label id :: rest := by
  rw [labelTarget, placed, List.dropWhile_append_of_pos, List.dropWhile_cons_of_neg]
  · simp
  · intro node member
    have other : node ≠ .label id := fun same => absent (same ▸ member)
    simp [other]

/-- The return that is added at the end of a function gives zero. -/
private theorem ends_finalReturn {before : List IrNode} {t : Nat} {state : IrState σ}
    (inside : finalReturn before t ≠ []) : ∃ temps', Ends (irStep w cell nodes)
      (finalReturn before t) state (.ok 0 ⟨temps', state.store.log (.value 0)⟩) := by
  rw [finalReturn] at inside ⊢
  split
  case isTrue returns =>
    rw [if_pos returns] at inside
    exact absurd rfl inside
  case isFalse =>
    have straight : (IrNode.operation (t + 1) .const 0 0 0).Straight := straight_operation (by decide)
    have zero : irStep w cell nodes [.operation (t + 1) .const 0 0 0, .ret (t + 1)] state =
        .ok (.more [.ret (t + 1)])
          ⟨Function.update state.temps (t + 1) (some 0), state.store.log (.value 0)⟩ := by
      rw [irStep_straight straight 0]
      rfl
    exact ⟨_, .of_path (.one zero) ⟨0, _, _, .refl,
      irStep_ret (Nat.succ_ne_zero _) (Function.update_self ..)⟩⟩

/-- The body of a function, with all jumps to its labels. -/
theorem FunctionCode.body_does (w : World σ) (cell : Nat → Word) (limit : Nat)
    (function : FunctionCode params vars scopeN body nodes temps code g)
    (bounded : VarsUpTo params vars) (arity : args.length = params)
    (shown : Shown w cell nodes params vars ⟨env, []⟩) (temps' : Temps)
    (held : Held cell nodes params [] temps') (store : Store σ) :
    let final := finalReturn (.label 1 :: paramCode params 1 params ++ code.map Prod.fst) g.temps
    Performs (irStep w cell nodes) IrState.store (· = .undefined) (fun _ _ _ _ => False) limit
      (code.map Prod.fst ++ final) ⟨temps', store⟩ (fun _ ahead _ => ahead = final)
      ((runStatements w cell limit body args.length ⟨env, []⟩ >>=
        Exit.restart (enterAt w cell limit env body args.length) limit) store) := by
  intro final
  have whole := function.whole bounded
  have given : ∀ name, Names (lablesOf body) name → name.isSome := names_isSome
  obtain ⟨generates, nodes_eq, _⟩ := function
  have lables := generates.lables_named given (entry_numbered params vars)
  obtain ⟨_, later⟩ := generates.numbering (entry_numbered params vars)
  have entry_made : 1 ∈ g.made := later.made.subset (List.mem_singleton.mpr rfl)
  cases generates with
  | @block _ _ _ _ inside _ inner =>
      have numbered : GenState.Numbered { GenState.entry params vars with
          vars := vars.hide (autoNames body) } := (entry_numbered params vars).of_eq rfl rfl rfl
      have standing : Standing nodes (code.map Prod.fst) final args.length := by
        refine ⟨.label 1 :: paramCode params 1 params, by rw [nodes_eq]; simp [final], ?_⟩
        rw [allocCount_cons, allocCount_paramCode, arity]
        rfl
      have low : params ≤ params + params := Nat.le_add_left params params
      have bounded' : VarsUpTo (params + params) (vars.hide (autoNames body)) :=
        (bounded.mono low).hide
      have same_later : GenState.Later inside { inside with vars := vars, held := [] } :=
        .of_eq rfl rfl rfl
      have begun := inner.does cell limit given whole numbered bounded' low same_later standing
        (fun _ same => by cases same) (shown.hide _) held store
      refine (Performs.restart ?_ (Nat.le_refl limit) begun).mono (Nat.le_refl limit)
        fun _ _ _ arrives => arrives.1
      rintro name locals _ ⟨temps'', store''⟩ ⟨⟨stored, member, same⟩, id, known, rfl, held'⟩
      obtain ⟨id', known', defined⟩ := lables stored member
      rw [← whole.numbered.same name stored same, known] at known'
      cases known'
      have lands := inner.lands w cell limit given whole numbered bounded' low same_later standing
        (fun _ same => by cases same) known
      obtain ⟨absent, _⟩ | ⟨before, after, placed, absent, found⟩ := lands
      · exact absurd (mem_lableDefs.mp defined) absent
      · obtain ⟨run, landed, does⟩ := found ⟨env, locals.passed⟩
        have placed' : nodes = (.label 1 :: paramCode params 1 params ++ before) ++
            .label id :: (after ++ final) := by
          rw [nodes_eq]
          change .label 1 :: paramCode params 1 params ++ code.map Prod.fst ++ final = _
          rw [placed]
          simp
        have earlier : .label id ∉ .label 1 :: paramCode params 1 params ++ before := by
          have other : id ≠ 1 := fun same => whole.numbered.apart name id known (same ▸ entry_made)
          have none : .label id ∉ paramCode params 1 params := fun member => by
            have defined := mem_lableDefs.mpr member
            rw [(paramCode_lables params 1 params).1] at defined
            cases defined
          simp [other, none, absent]
        have first := labelTarget_first earlier placed'
        refine ⟨after ++ final, ⟨temps'', store''⟩, first ▸ .one rfl, ?_⟩
        change landStatements w cell limit name body args.length ⟨env, locals.passed⟩ = some run
          at landed
        rw [enterAt, landed, Option.getD_some]
        exact (does temps'' store'' ((shown.hide _).mono (List.nil_subset _)) held').mono
          (Nat.le_refl limit) fun _ _ _ arrives => arrives.mono (List.nil_subset _)

/-- What a call of a function does, jumps included, if the body has a meaning. -/
theorem FunctionCode.does (w : World σ) (cell : Nat → Word) (limit : Nat)
    (function : FunctionCode params vars scopeN body nodes temps code g)
    (bounded : VarsUpTo params vars) (arity : args.length = params)
    (shown : Shown w cell nodes params vars ⟨env, []⟩) (store : Store σ) :
    match callLabelled w cell limit env body args store with
    | .ok (some value) store' => ∃ temps, Ends (irStep w cell nodes) nodes
        ⟨argTemps args, store⟩ (.ok value ⟨temps, store'⟩)
    | .ok none _ => ∃ n last final, limit ≤ n ∧
        Path (irStep w cell nodes) n nodes ⟨argTemps args, store⟩ last final
    | .error halt store' => halt = .undefined ∨ ∃ temps, Ends (irStep w cell nodes) nodes
        ⟨argTemps args, store⟩ (.error halt ⟨temps, store'⟩) := by
  have formed := function.wellFormed bounded
  obtain ⟨t, last⟩ := formed.last
  have followed := function.body_does w cell limit bounded arity shown
  have nodes_eq := function.nodes_eq
  generalize finalEq : finalReturn (.label 1 :: paramCode params 1 params ++ code.map Prod.fst)
    g.temps = final at followed nodes_eq
  have standing : Standing nodes
      ([IrNode.label 1] ++ (paramCode args.length 1 params ++ code.map Prod.fst)) final 0 :=
    ⟨[], by rw [nodes_eq, arity]; simp, rfl⟩
  have args_held : ∀ i < args.length, argTemps args (0 + 1 + i) = args[i]? := by
    intro i _
    rw [argTemps, if_neg (by omega), show 0 + 1 + i - 1 = i by omega]
  obtain ⟨n, temps', store', entered, path, found, kept⟩ :=
    path_paramCode w cell store standing.later.first args_held (by omega)
  have held : Held cell nodes params [] temps' := by
    refine ⟨kept 0 (Nat.le_refl 0), fun i small => ?_, fun _ _ _ member => by cases member⟩
    have known := found i (by omega)
    rwa [Nat.zero_add, Nat.zero_add, Nat.add_comm 1 i] at known
  have shape : nodes = .label 1 :: (paramCode args.length (0 + 1) params ++
      (code.map Prod.fst ++ final)) := by
    rw [nodes_eq, arity]
    simp
  have labelled : Path (irStep w cell nodes) 1 nodes ⟨argTemps args, store⟩
      (paramCode args.length (0 + 1) params ++ (code.map Prod.fst ++ final))
      ⟨argTemps args, store⟩ := by
    nth_rewrite 2 [shape]
    exact .one rfl
  have ran := (followed temps' held store').after_path (labelled.trans path)
  rw [callLabelled, bind_run_of_ok entered, bind_run]
  cases result : (runStatements w cell limit body args.length ⟨env, []⟩ >>=
      Exit.restart (enterAt w cell limit env body args.length) limit) store' with
  | error halt store'' =>
      rw [result] at ran
      obtain undefined | ⟨⟨temps'', _⟩, ends, rfl⟩ := ran
      · exact .inl undefined
      · exact .inr ⟨temps'', ends⟩
  | ok exit store'' =>
      rw [result] at ran
      cases exit with
      | returned value =>
          obtain ⟨⟨temps'', _⟩, ends, rfl⟩ := ran
          exact ⟨temps'', ends⟩
      | running => exact ran
      | jump =>
          obtain ⟨_, _, _, _, _, impossible⟩ := ran
          exact impossible.elim
      | done frame =>
          obtain ⟨m, _, ⟨temps'', _⟩, path', rfl, rfl⟩ := ran
          have inside := path_ne_nil path' ⟨t, last⟩ formed.targets List.suffix_rfl (by simp [shape])
          rw [← finalEq] at path' inside
          exact (ends_finalReturn inside).imp fun temps₃ ends => .of_path path' ends

end Function

namespace FunctionRun

variable (run : FunctionRun)

theorem shown_env (w : World σ) (cell : Nat → Word) :
    Shown w cell nodes run.params run.vars ⟨run.vars.env w cell, []⟩ := by
  intro name lv found
  obtain rfl | ⟨k, rfl, low, high⟩ := run.vars_eq_some found
  · simp [Vars.env, found]
  · exact .inl ⟨k - 1, by omega, by omega, by simp [Vars.env, found]⟩

end FunctionRun

end Trident
