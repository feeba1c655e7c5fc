import Trident.Ir.ControlFlow

/-! Which temporaries are written on the paths through the nodes of a function.
The temporaries that may still be read from a position on are found by going
backwards; at a label all variables declared in the blocks around it count. -/

set_option autoImplicit false

namespace Trident

open Foundation

/-! What code needs from before, read backwards through the nodes. -/

/-- A node that passes control to the next one, possibly with a word in the frame. -/
def IrNode.Flow : IrNode → Prop
  | .operation .. => True
  | .call .. => True
  | _ => False

theorem IrNode.Straight.flow {node : IrNode} (straight : node.Straight) : node.Flow := by
  cases node <;> trivial

/-- The temporaries that the marked nodes read before they write them. A label
or a jump counts as reading all variables declared there. -/
def needs : List (IrNode × List Nat) → Nat → Prop
  | [], _ => False
  | (.label _, held) :: _, i => i ∈ held
  | (.jump _, held) :: _, i => i ∈ held
  | (.branch _ _ t, held) :: _, i => i = t ∨ i ∈ held
  | (.ret t, _) :: _, i => i = t
  | (node, _) :: rest, i => i ∈ node.reads ∨ needs rest i ∧ node.dest? ≠ some i

private theorem needs_flow {node : IrNode} (flow : node.Flow) (held : List Nat)
    (rest : List (IrNode × List Nat)) (i : Nat) :
    needs ((node, held) :: rest) i ↔ i ∈ node.reads ∨ needs rest i ∧ node.dest? ≠ some i := by
  cases node <;> first | exact Iff.rfl | exact flow.elim

private theorem mark_append (held : List Nat) (first second : List IrNode) :
    mark held (first ++ second) = mark held first ++ mark held second := List.map_append

/-- The code reads temporaries for which `given` holds, and those it has written. -/
def Reads (given : Nat → Prop) (code : List IrNode) : Prop :=
  ∀ held rest i, needs (mark held code ++ rest) i → given i ∨ needs rest i ∧ i ∉ dests code

namespace Reads

variable {given given' : Nat → Prop} {first second : List IrNode} {node : IrNode}

theorem nil : Reads given [] := fun _ _ _ needed => .inr ⟨needed, nofun⟩

theorem append (left : Reads given first)
    (right : Reads (fun i => given i ∨ i ∈ dests first) second) :
    Reads given (first ++ second) := by
  intro held rest i needed
  rw [mark_append, List.append_assoc] at needed
  obtain known | ⟨needed, unwritten⟩ := left held _ i needed
  · exact .inl known
  · obtain (known | written) | ⟨needed, unwritten'⟩ := right held rest i needed
    · exact .inl known
    · exact absurd written unwritten
    · exact .inr ⟨needed, by simp [unwritten, unwritten']⟩

theorem single (flow : node.Flow) (reads : ∀ i ∈ node.reads, given i) : Reads given [node] := by
  intro held rest i needed
  obtain read | ⟨needed, unwritten⟩ := (needs_flow flow held rest i).mp needed
  · exact .inl (reads i read)
  · refine .inr ⟨needed, ?_⟩
    cases dest : node.dest? with
    | none => simp [dests, dest]
    | some d =>
        rw [dest] at unwritten
        simpa [dests, dest] using fun same : i = d => unwritten (same ▸ rfl)

end Reads

/-! Expressions write all that they read. -/

/-- The temporaries that hold the value or the address at a place. -/
def LValue.used : LValue → List Nat
  | .global _ => []
  | .local_ addrTemp => [addrTemp]

def Place.used : Place → List Nat
  | .temp a => [a]
  | .lvalue lv => lv.used
  | .temps ts => ts

section Expressions

variable {given : Nat → Prop} {t : Nat} {lv : LValue}

private theorem reads_loadNode (held : ∀ i ∈ lv.used, given i) : Reads given [lv.loadNode t] :=
  .single straight_loadNode.flow (by cases lv <;> exact held)

private theorem reads_addrNode (held : ∀ i ∈ lv.used, given i) : Reads given [lv.addrNode t] :=
  .single straight_addrNode.flow (by cases lv <;> exact held)

private theorem reads_storeNode (held : ∀ i ∈ lv.used, given i) (value : given t) :
    Reads given [lv.storeNode t] := by
  refine .single straight_storeNode.flow ?_
  cases lv with
  | global name => exact List.forall_mem_singleton.mpr value
  | local_ addrTemp =>
      exact List.forall_mem_cons.mpr ⟨held addrTemp List.mem_cons_self,
        List.forall_mem_singleton.mpr value⟩

private theorem reads_binary {op : TokenKind} {a b : Nat} (known : binopToIrop op ≠ .unset)
    (left : given a) (right : given b) :
    Reads given [.operation t (binopToIrop op) a b] := by
  refine .single trivial ?_
  have both : ∀ i ∈ [a, b], given i :=
    List.forall_mem_cons.mpr ⟨left, List.forall_mem_singleton.mpr right⟩
  cases op <;> first | exact absurd rfl known | exact both

private theorem dests_binary {op : TokenKind} {a b : Nat} (known : binopToIrop op ≠ .unset) :
    dests [.operation t (binopToIrop op) a b] = [t] := by
  cases op <;> first | exact absurd rfl known | rfl

private theorem reads_step {op : TokenKind} (known : binopToIrop op ≠ .unset)
    (held : ∀ i ∈ lv.used, given i) :
    Reads given [lv.loadNode (t + 1), .operation (t + 2) .const 0 0 1,
      .operation (t + 3) (binopToIrop op) (t + 1) (t + 2), lv.storeNode (t + 3)] := by
  have loaded : t + 1 ∈ dests [lv.loadNode (t + 1)] := by
    cases lv <;> exact List.mem_singleton.mpr rfl
  have one : t + 2 ∈ dests [.operation (t + 2) .const 0 0 1] := List.mem_singleton.mpr rfl
  have new : t + 3 ∈ dests [.operation (t + 3) (binopToIrop op) (t + 1) (t + 2)] := by
    rw [dests_binary known]
    exact List.mem_singleton.mpr rfl
  have const {given : Nat → Prop} : Reads given [.operation (t + 2) .const 0 0 1] :=
    .single trivial nofun
  exact (reads_loadNode held).append (.append const (.append
    (reads_binary known (.inl (.inr loaded)) (.inr one))
    (reads_storeNode (fun i member => .inl (.inl (.inl (held i member)))) (.inr new))))

private theorem written_append {first second : List IrNode} {i : Nat} :
    given i ∨ i ∈ dests (first ++ second) ↔ (given i ∨ i ∈ dests first) ∨ i ∈ dests second := by
  rw [dests_append, List.mem_append, or_assoc]

private theorem written_last (given : Nat → Prop) (code : List IrNode) {node : IrNode} {d : Nat}
    (dest : node.dest? = some d) :
    ∀ i ∈ (Place.temp d).used, given i ∨ i ∈ dests (code ++ [node]) :=
  List.forall_mem_singleton.mpr (.inr (by simp [dests, dest]))

private theorem dest_loadNode (lv : LValue) (t : Nat) : (lv.loadNode t).dest? = some t := by
  cases lv <;> rfl

private theorem dest_addrNode (lv : LValue) (t : Nat) : (lv.addrNode t).dest? = some t := by
  cases lv <;> rfl

private theorem dest_binary {op : TokenKind} {a b : Nat} (known : binopToIrop op ≠ .unset) :
    (IrNode.operation t (binopToIrop op) a b).dest? = some t := by
  cases op <;> first | exact absurd rfl known | rfl

/-- The code of an expression reads the addresses of variables and what it has
written, and has written the value it delivers. -/
theorem Lowers.reads {vars : Vars} {phrase : ExprPhrase} {t t' : Nat} {code : List IrNode}
    {place : Place} (lowered : Lowers vars phrase t code place t') :
    ∀ given : Nat → Prop, (∀ name lv, vars name = some lv → ∀ i ∈ lv.used, given i) →
      Reads given code ∧ ∀ i ∈ place.used, given i ∨ i ∈ dests code := by
  have stepped {given : Nat → Prop} (op : TokenKind) {lv : LValue} {t : Nat}
      {code : List IrNode} (known : binopToIrop op ≠ .unset)
      (reads : Reads given code) (held : ∀ i ∈ lv.used, given i ∨ i ∈ dests code) :
      Reads given (code ++ [lv.loadNode (t + 1), .operation (t + 2) .const 0 0 1,
        .operation (t + 3) (binopToIrop op) (t + 1) (t + 2), lv.storeNode (t + 3)]) ∧
      ∀ i ∈ (Place.temp (t + 3)).used, given i ∨ i ∈ dests (code ++ [lv.loadNode (t + 1),
        .operation (t + 2) .const 0 0 1, .operation (t + 3) (binopToIrop op) (t + 1) (t + 2),
        lv.storeNode (t + 3)]) := by
    refine ⟨reads.append (reads_step known held), List.forall_mem_singleton.mpr (.inr ?_)⟩
    simp [dests, dest_binary known]
  induction lowered with
  | int | string => exact fun _ _ => ⟨.single trivial (List.forall_mem_nil _), written_last _ [] rfl⟩
  | identifier found =>
      intro given addresses
      exact ⟨reads_loadNode (addresses _ _ found), written_last _ [] (dest_loadNode _ _)⟩
  | addressOf _ ih =>
      intro given addresses
      obtain ⟨reads, held⟩ := ih given addresses
      exact ⟨reads.append (reads_addrNode held), written_last _ _ (dest_addrNode _ _)⟩
  | load _ ih =>
      intro given addresses
      obtain ⟨reads, held⟩ := ih given addresses
      exact ⟨reads.append (.single trivial held), written_last _ _ rfl⟩
  | neg _ ih =>
      intro given addresses
      obtain ⟨reads, held⟩ := ih given addresses
      exact ⟨reads.append (.single trivial held), written_last _ _ rfl⟩
  | @not _ _ code a t' _ ih =>
      intro given addresses
      obtain ⟨reads, held⟩ := ih given addresses
      have zero : Reads (fun i => given i ∨ i ∈ dests code)
          [.operation (t' + 1) .const 0 0 0] := .single trivial (List.forall_mem_nil _)
      have equal : Reads (fun i => (given i ∨ i ∈ dests code) ∨
          i ∈ dests [.operation (t' + 1) .const 0 0 0]) [.operation (t' + 2) .eq a (t' + 1)] :=
        reads_binary (show binopToIrop .equal ≠ .unset by decide) (.inl (held a (List.mem_singleton.mpr rfl)))
          (.inr (List.mem_singleton.mpr rfl))
      exact ⟨reads.append (zero.append equal),
        List.forall_mem_singleton.mpr (.inr (by simp [dests, IrNode.dest?]))⟩
  | inc _ ih =>
      intro given addresses
      obtain ⟨reads, held⟩ := ih given addresses
      exact stepped .add (by decide) reads held
  | dec _ ih =>
      intro given addresses
      obtain ⟨reads, held⟩ := ih given addresses
      exact stepped .sub (by decide) reads held
  | @assign _ _ _ rightCode a _ leftCode _ _ _ _ rightIH leftIH =>
      intro given addresses
      obtain ⟨right, value⟩ := rightIH given addresses
      obtain ⟨left, held⟩ := leftIH (fun i => given i ∨ i ∈ dests rightCode)
        fun name lv found i member => .inl (addresses name lv found i member)
      have both := right.append left
      have stored : ∀ i ∈ (Place.temp a).used, given i ∨ i ∈ dests (rightCode ++ leftCode) :=
        fun i member => written_append.mpr (.inl (value i member))
      refine ⟨both.append (reads_storeNode (fun i member => written_append.mpr (held i member))
        (stored a (List.mem_singleton.mpr rfl))), fun i member => ?_⟩
      exact written_append.mpr (.inl (stored i member))
  | @binary _ _ _ _ leftCode a _ _ b _ _ known _ _ leftIH rightIH =>
      intro given addresses
      obtain ⟨left, first⟩ := leftIH given addresses
      obtain ⟨right, second⟩ := rightIH (fun i => given i ∨ i ∈ dests leftCode)
        fun name lv found i member => .inl (addresses name lv found i member)
      refine ⟨(left.append right).append (reads_binary known ?_ ?_),
        written_last _ _ (dest_binary known)⟩
      · exact written_append.mpr (.inl (first a (List.mem_singleton.mpr rfl)))
      · exact written_append.mpr (second b (List.mem_singleton.mpr rfl))
  | call _ ih =>
      intro given addresses
      obtain ⟨reads, held⟩ := ih given addresses
      exact ⟨reads.append (.single trivial held), written_last _ _ rfl⟩
  | lvIdentifier found =>
      exact fun _ addresses => ⟨.nil, fun i member => .inl (addresses _ _ found i member)⟩
  | lvDeref _ ih => exact ih
  | argsNil => exact fun _ _ => ⟨.nil, List.forall_mem_nil _⟩
  | @argsCons _ _ _ code _ _ _ _ _ _ _ argIH argsIH =>
      intro given addresses
      obtain ⟨first, value⟩ := argIH given addresses
      obtain ⟨rest, values⟩ := argsIH (fun i => given i ∨ i ∈ dests code)
        fun name lv found i member => .inl (addresses name lv found i member)
      refine ⟨first.append rest, fun i member => written_append.mpr ?_⟩
      obtain rfl | member := List.mem_cons.mp member
      · exact .inl (value i (List.mem_singleton.mpr rfl))
      · exact values i member

end Expressions

/-! Phrases: at every label the variables are held that were declared where it stands. -/

/-- At each label, what may still be read is declared there, or a parameter. -/
def LablesHeld (params : Nat → Prop) : List (IrNode × List Nat) → Prop
  | [] => True
  | (node, held) :: rest =>
      (node.lable?.isSome → ∀ i, needs rest i → i ∈ held ∨ params i) ∧ LablesHeld params rest

/-- From here on only the variables `held` and the parameters may still be read. -/
structure Fits (params : Nat → Prop) (held : List Nat) (code : List (IrNode × List Nat)) :
    Prop where
  needed : ∀ i, needs code i → i ∈ held ∨ params i
  lables : LablesHeld params code

/-- The code may be put before any that fits the variables declared after it. -/
def Flows (params : Nat → Prop) (held held' : List Nat) (code : List (IrNode × List Nat)) : Prop :=
  ∀ rest, Fits params held' rest → Fits params held (code ++ rest)

section Flows

variable {params : Nat → Prop} {held held' middle : List Nat} {first second : List (IrNode × List Nat)}
  {code : List IrNode}

theorem Fits.mono (fits : Fits params held first) (subset : held ⊆ held') :
    Fits params held' first :=
  ⟨fun i needed => (fits.needed i needed).imp_left (subset ·), fits.lables⟩

private theorem lablesHeld_mark (none : lableDefs code = []) {rest : List (IrNode × List Nat)}
    (lables : LablesHeld params rest) : LablesHeld params (mark held code ++ rest) := by
  induction code with
  | nil => exact lables
  | cons node code ih =>
      rw [lableDefs_cons] at none
      obtain ⟨first, others⟩ := List.append_eq_nil_iff.mp none
      refine ⟨fun defined => ?_, ih others⟩
      change node.lable?.isSome at defined
      rw [Option.toList_eq_nil_iff.mp first] at defined
      cases defined

namespace Flows

theorem nil : Flows params held held [] := fun _ fits => fits

theorem append (left : Flows params held middle first) (right : Flows params middle held' second) :
    Flows params held held' (first ++ second) := by
  intro rest fits
  rw [List.append_assoc]
  exact left _ (right rest fits)

theorem of_reads (reads : Reads (fun i => i ∈ held ∨ params i) code)
    (none : lableDefs code = []) : Flows params held held (mark held code) := by
  intro rest fits
  refine ⟨fun i needed => ?_, lablesHeld_mark none fits.lables⟩
  obtain known | ⟨needed, _⟩ := reads held rest i needed
  · exact known
  · exact fits.needed i needed

theorem lable (id : Nat) : Flows params held held (mark held [.label id]) :=
  fun _ fits => ⟨fun _ needed => .inl needed, fun _ => fits.needed, fits.lables⟩

theorem jump (id : Nat) : Flows params held held (mark held [.jump id]) :=
  fun _ fits => ⟨fun _ needed => .inl needed, nofun, fits.lables⟩

theorem alloc (d : Nat) : Flows params held (d :: held) (mark held [.operation d .alloc 0 0]) := by
  intro rest fits
  refine ⟨fun i needed => ?_, nofun, fits.lables⟩
  obtain ⟨⟨⟩⟩ | ⟨needed, other⟩ := needed
  obtain member | known := fits.needed i needed
  · obtain rfl | member := List.mem_cons.mp member
    · exact absurd rfl other
    · exact .inl member
  · exact .inr known

/-- Code that ends in a read of the value it delivers. -/
theorem last {a : Nat} {node : IrNode} (reads : Reads (fun i => i ∈ held ∨ params i) code)
    (none : lableDefs code = []) (held_or : ∀ i ∈ (Place.temp a).used,
      (i ∈ held ∨ params i) ∨ i ∈ dests code) (unlabelled : node.lable? = Option.none)
    (reading : ∀ rest i, needs ((node, held) :: rest) i → i = a ∨ i ∈ held) :
    Flows params held held (mark held (code ++ [node])) := by
  intro rest fits
  rw [mark_append, List.append_assoc]
  refine ⟨fun i needed => ?_, lablesHeld_mark none ⟨fun defined => ?_, fits.lables⟩⟩
  · obtain known | ⟨needed, unwritten⟩ := reads held _ i needed
    · exact known
    · obtain rfl | member := reading rest i needed
      · exact (held_or i (List.mem_singleton.mpr rfl)).resolve_right unwritten
      · exact .inl member
  · rw [unlabelled] at defined
    cases defined

end Flows

/-- The addresses of the visible variables are declared, or parameters. -/
def Vars.Held (params : Nat → Prop) (held : List Nat) (vars : Vars) : Prop :=
  ∀ name lv, vars name = some lv → ∀ i ∈ lv.used, i ∈ held ∨ params i

theorem Generates.flows {declared : CStr → Prop} {endLable : Nat} {phrase : ScopePhrase}
    {g g' : GenState} {code : List (IrNode × List Nat)}
    (generates : Generates declared endLable phrase g code g')
    (addresses : g.vars.Held params g.held) :
    Flows params g.held g'.held code ∧ g'.vars.Held params g'.held ∧ g.held ⊆ g'.held := by
  induction generates with
  | return_ lowers =>
      obtain ⟨reads, held⟩ := lowers.reads _ addresses
      refine ⟨.last reads (lableDefs_straight lowers.straight) held rfl ?_, addresses, fun _ => id⟩
      exact fun rest i needed => .inl needed
  | expr lowers =>
      obtain ⟨reads, _⟩ := lowers.reads _ addresses
      exact ⟨.of_reads reads (lableDefs_straight lowers.straight), addresses, fun _ => id⟩
  | @auto _ name _ g =>
      refine ⟨.alloc _, fun other lv found i member => ?_, fun _ => List.mem_cons_of_mem _⟩
      change g.vars.bind name (.local_ (g.temps + 1)) other = some lv at found
      rw [Vars.bind] at found
      split at found
      · cases found
        obtain rfl := List.mem_singleton.mp member
        exact .inl List.mem_cons_self
      · exact (addresses other lv found i member).imp_left (List.mem_cons_of_mem _)
  | extrn | nil | noChain => exact ⟨.nil, addresses, fun _ => id⟩
  | @lable _ name g =>
      unfold GenState.number
      split <;> exact ⟨.lable _, addresses, fun _ => id⟩
  | @goto _ name g =>
      unfold GenState.number
      split <;> exact ⟨.jump _, addresses, fun _ => id⟩
  | scope _ ih | else_ _ ih => exact ih addresses
  | @block _ _ body g g' _ _ ih =>
      have hidden : (g.vars.hide (autoNames body)).Held params g.held := by
        intro name lv found
        rw [Vars.hide] at found
        split at found
        · cases found
        · exact addresses name lv found
      obtain ⟨flows, _, grown⟩ := ih hidden
      exact ⟨fun rest fits => flows rest (fits.mono grown), addresses, fun _ => id⟩
  | @if_ _ _ _ _ g code g' generates ih =>
      obtain ⟨flows, addresses', _⟩ := ih addresses
      have held := (generates.scope_eq rfl).2
      change g'.held = g.held at held
      rw [held] at flows addresses' ⊢
      exact ⟨flows.append (.lable _), addresses', fun _ => id⟩
  | @while_ _ _ _ _ g code c t bodyCode g' lowers generates ih =>
      obtain ⟨reads, value⟩ := lowers.reads _ addresses
      obtain ⟨flows, addresses', _⟩ := ih addresses
      have held := (generates.scope_eq rfl).2
      change g'.held = g.held at held
      rw [held] at flows addresses' ⊢
      have test : Flows params g.held g.held
          (mark g.held (code ++ [.branch (g.lables + 2) (g.lables + 3) c])) :=
        .last reads (lableDefs_straight lowers.straight) value rfl fun _ _ needed => needed
      have entry := ((Flows.lable (g.lables + 1)).append test).append (.lable (g.lables + 2))
      have again : Flows params g.held g.held _ := .jump (g.lables + 1)
      have back := again.append (.lable (g.lables + 3))
      have all := (entry.append flows).append back
      refine ⟨?_, addresses', fun _ => id⟩
      simpa only [mark, List.map_append, List.map_cons, List.map_nil, List.append_assoc,
        List.cons_append, List.nil_append] using all
  | cons first rest firstIH restIH =>
      obtain ⟨first, addresses, grown⟩ := firstIH addresses
      obtain ⟨rest, addresses, grown'⟩ := restIH addresses
      exact ⟨first.append rest, addresses, fun _ member => grown' (grown member)⟩
  | @elseIf endLable _ _ _ _ g code c t bodyCode middle chainCode g' lowers body chained bodyIH
      chainIH =>
      obtain ⟨reads, value⟩ := lowers.reads _ addresses
      obtain ⟨flows, addresses', _⟩ := bodyIH addresses
      obtain ⟨rest, addresses'', _⟩ := chainIH addresses'
      have held := (body.scope_eq rfl).2
      change middle.held = g.held at held
      have held' := (chained.scope_eq rfl).2
      rw [held', held] at addresses'' ⊢
      rw [held', held] at rest
      rw [held] at flows
      have test : Flows params g.held g.held
          (mark g.held (code ++ [.branch (g.lables + 1) (g.lables + 2) c])) :=
        .last reads (lableDefs_straight lowers.straight) value rfl fun _ _ needed => needed
      have entry := test.append (.lable (g.lables + 1))
      have leave : Flows params g.held g.held _ := .jump endLable
      have skip := leave.append (.lable (g.lables + 2))
      have all := ((entry.append flows).append skip).append rest
      refine ⟨?_, addresses'', fun _ => id⟩
      simpa only [mark, List.map_append, List.map_cons, List.map_nil, List.append_assoc,
        List.cons_append, List.nil_append] using all

end Flows

/-! The control-flow graph of a function, and the paths through it. -/

/-- The nodes of a function with their marks. -/
def functionMarks (params : Nat) (code : List (IrNode × List Nat)) (t : Nat) :
    List (IrNode × List Nat) :=
  mark [] (.label 1 :: paramCode params 1 params) ++ code ++
    mark [] (finalReturn (.label 1 :: paramCode params 1 params ++ code.map Prod.fst) t)

/-- The variables declared at the first definition of a label. -/
def heldAt (marks : List (IrNode × List Nat)) (id : Nat) : List Nat :=
  match marks.find? (·.1 = .label id) with
  | some mark => mark.2
  | none => []

private theorem heldAt_eq {marks : List (IrNode × List Nat)} {id : Nat} {held : List Nat}
    (member : (.label id, held) ∈ marks) (once : (marks.map Prod.fst).count (.label id) = 1) :
    heldAt marks id = held := by
  induction marks with
  | nil => cases member
  | cons first marks ih =>
      obtain ⟨node, kept⟩ := first
      by_cases here : node = .label id
      · obtain rfl := here
        obtain same | later := List.mem_cons.mp member
        · cases same
          simp [heldAt]
        · have inside : .label id ∈ marks.map Prod.fst := List.mem_map.mpr ⟨_, later, rfl⟩
          have again := List.count_pos_iff.mpr inside
          rw [List.map_cons, List.count_cons_self] at once
          omega
      · obtain same | later := List.mem_cons.mp member
        · cases same
          exact absurd rfl here
        · rw [List.map_cons, List.count_cons_of_ne here] at once
          rw [← ih later once]
          simp [heldAt, here]

private theorem heldAt_of_needs {marks : List (IrNode × List Nat)} {id i : Nat}
    (needed : needs (marks.dropWhile (·.1 ≠ .label id)) i) : i ∈ heldAt marks id := by
  induction marks with
  | nil => cases needed
  | cons first marks ih =>
      obtain ⟨node, kept⟩ := first
      by_cases here : node = .label id
      · obtain rfl := here
        rw [List.dropWhile_cons_of_neg (by simp)] at needed
        change i ∈ kept at needed
        simpa [heldAt] using needed
      · rw [List.dropWhile_cons_of_pos (by simpa using here)] at needed
        have member := ih needed
        simpa [heldAt, here] using member

/-- Where control may go after a node: on to the next one, or to a label. -/
inductive Successor (nodes : List IrNode) : List IrNode → List IrNode → Prop where
  | next {node rest} :
      node.targets = [] → node.isRet = false → Successor nodes (node :: rest) rest
  | target {node rest id} :
      id ∈ node.targets → Successor nodes (node :: rest) (labelTarget id nodes)

/-- `CfgPath allowed nodes visited ahead`: a path through the control-flow graph
from the entry, by steps that are allowed, has passed the nodes `visited`. -/
inductive CfgPath (allowed : List IrNode → IrNode → Prop) (nodes : List IrNode) :
    List IrNode → List IrNode → Prop where
  | entry : CfgPath allowed nodes [] nodes
  | step {visited node rest next} :
      CfgPath allowed nodes visited (node :: rest) → allowed visited node →
      Successor nodes (node :: rest) next → CfgPath allowed nodes (visited ++ [node]) next

def Incoming (params i : Nat) : Prop := 1 ≤ i ∧ i ≤ params

/-- A temporary that holds a parameter, or was written by one of the nodes. -/
def Written (params : Nat) (visited : List IrNode) (i : Nat) : Prop :=
  Incoming params i ∨ i ∈ dests visited

/-- No node on any path reads a temporary that was not written before. -/
def ReadsWritten (allowed : List IrNode → IrNode → Prop) (params : Nat) (nodes : List IrNode) :
    Prop :=
  ∀ visited node rest, CfgPath allowed nodes visited (node :: rest) →
    ∀ i ∈ node.reads, Written params visited i

/-- A step that is not the jump of a `goto` past the declaration of a variable:
when the node jumps to a label of the source, the variables declared there have
received their addresses. -/
def Careful (params : Nat) (named : CStr → Option Nat) (marks : List (IrNode × List Nat))
    (visited : List IrNode) (node : IrNode) : Prop :=
  ∀ name id, node = .jump id → named name = some id →
    ∀ i ∈ heldAt marks id, Written params visited i

section Function

variable {params temps : Nat} {vars : Vars} {scopeN : AstScope} {body : List AstNode}
  {nodes : List IrNode} {code : List (IrNode × List Nat)} {g : GenState}

theorem FunctionCode.nodes_marked
    (function : FunctionCode params vars scopeN body nodes temps code g) :
    nodes = (functionMarks params code g.temps).map Prod.fst := by
  rw [function.nodes_eq, functionMarks, List.map_append, List.map_append, mark_fst, mark_fst]

private theorem reads_paramCode {given : Nat → Prop} {count i t : Nat}
    (incoming : ∀ j, i ≤ j → j < i + count → given j) : Reads given (paramCode count i t) := by
  induction count generalizing given i t with
  | zero => exact .nil
  | succ count ih =>
      have alloc : Reads given [.operation (t + 1) .alloc 0 0] := .single trivial nofun
      have new : t + 1 ∈ dests [.operation (t + 1) .alloc 0 0] := List.mem_singleton.mpr rfl
      have param : given i := incoming i (Nat.le_refl i) (by omega)
      have stores : ∀ j ∈ [t + 1, i], given j ∨ j ∈ dests [.operation (t + 1) .alloc 0 0] :=
        List.forall_mem_cons.mpr ⟨.inr new, List.forall_mem_singleton.mpr (.inl param)⟩
      have store : Reads (fun j => given j ∨ j ∈ dests [.operation (t + 1) .alloc 0 0])
          [.operation 0 .store (t + 1) i] := .single trivial stores
      have address : Reads (fun j => (given j ∨ j ∈ dests [.operation (t + 1) .alloc 0 0]) ∨
          j ∈ dests [.operation 0 .store (t + 1) i]) [.operation i .address (t + 1) 0] :=
        .single trivial (List.forall_mem_singleton.mpr (.inl (.inr new)))
      refine alloc.append (store.append (address.append (ih fun j low high => ?_)))
      exact .inl (.inl (.inl (incoming j (by omega) (by omega))))

/-- Only the parameters are read by a function before they are written. -/
theorem FunctionCode.fits (function : FunctionCode params vars scopeN body nodes temps code g)
    (bounded : VarsUpTo params vars) :
    Fits (Incoming params) [] (functionMarks params code g.temps) := by
  have addresses : vars.Held (Incoming params) [] := by
    intro name lv found i member
    cases lv with
    | global => cases member
    | local_ k =>
        obtain rfl := List.mem_singleton.mp member
        exact .inr (bounded name _ found)
  have entry : Flows (Incoming params) [] [] (mark [] [.label 1]) := .lable 1
  have entered : Flows (Incoming params) [] [] (mark [] (paramCode params 1 params)) := by
    refine .of_reads (reads_paramCode fun j low high => .inr ⟨low, by omega⟩) ?_
    exact (paramCode_lables params 1 params).1
  obtain ⟨flows, _, _⟩ := function.generates.flows addresses
  have held := (function.generates.scope_eq rfl).2
  change g.held = [] at held
  rw [held] at flows
  have final : Flows (Incoming params) [] [] (mark [] (finalReturn
      (.label 1 :: paramCode params 1 params ++ code.map Prod.fst) g.temps)) := by
    rw [finalReturn]
    split
    case isTrue => exact .nil
    case isFalse =>
      have zero : Reads (fun i => i ∈ [] ∨ Incoming params i)
          [.operation (g.temps + 1) .const 0 0 0] := .single trivial (List.forall_mem_nil _)
      exact .last zero rfl (written_last _ [] rfl) rfl fun _ _ needed => .inl needed
  have all := ((entry.append entered).append flows).append final
  have fits := all [] ⟨fun _ needed => needed.elim, trivial⟩
  rwa [List.append_nil] at fits

/-- A jump goes to a label with the same variables declared, or it is a `goto`. -/
theorem FunctionCode.targets_marked
    (function : FunctionCode params vars scopeN body nodes temps code g)
    (bounded : VarsUpTo params vars) {node : IrNode} {held : List Nat}
    (member : (node, held) ∈ functionMarks params code g.temps) {id : Nat}
    (target : id ∈ node.targets) :
    heldAt (functionMarks params code g.temps) id = held ∨
      ∃ name, node = .jump id ∧ g.named name = some id := by
  have once := (function.wellFormed bounded).made_once
  rw [function.nodes_marked] at once
  have none {code : List IrNode} (unused : lableUses code = []) : node ∉ code := by
    intro inside
    have used : id ∈ lableUses code := List.mem_flatMap.mpr ⟨node, inside, target⟩
    rw [unused] at used
    cases used
  obtain (entered | inside) | final := by
    simpa only [functionMarks, List.mem_append] using member
  · have unused : lableUses (.label 1 :: paramCode params 1 params) = [] :=
      (paramCode_lables params 1 params).2
    exact absurd (mem_mark.mp entered).1 (none unused)
  · obtain ⟨made, defined⟩ | ⟨jump, name, _, number⟩ | ⟨_, _, _, ⟨⟩⟩ :=
      function.generates.targets_known names_isSome (entry_numbered params vars) node held inside
        id target
    · refine .inl (heldAt_eq ?_ (once id made))
      simp [functionMarks, defined]
    · exact .inr ⟨name, jump, number⟩
  · exact absurd (mem_mark.mp final).1 (none (finalReturn_lables _ _).2)

theorem LablesHeld.suffix {given : Nat → Prop} {marks rest : List (IrNode × List Nat)}
    (lables : LablesHeld given marks) (suffix : rest <:+ marks) : LablesHeld given rest := by
  induction marks with
  | nil =>
      obtain rfl := List.suffix_nil.mp suffix
      exact lables
  | cons first marks ih =>
      obtain rfl | suffix := List.suffix_cons_iff.mp suffix
      · exact lables
      · exact ih lables.2 suffix

/-- All variables declared at a jump count as read by it. -/
private theorem needs_target {node : IrNode} {held : List Nat} {rest : List (IrNode × List Nat)}
    {id i : Nat} (target : id ∈ node.targets) (member : i ∈ held) :
    needs ((node, held) :: rest) i := by
  cases node with
  | jump => exact member
  | branch => exact .inr member
  | _ => cases target

private theorem needs_reads {node : IrNode} {held : List Nat} {rest : List (IrNode × List Nat)} {i : Nat}
    (read : i ∈ node.reads) : needs ((node, held) :: rest) i := by
  cases node with
  | label | jump => cases read
  | branch => exact .inl (List.mem_singleton.mp read)
  | ret => exact List.mem_singleton.mp read
  | operation | call => exact .inl read

/-- A node that passes control on leaves what is still read written. -/
private theorem written_next {node : IrNode} {held : List Nat} {rest : List (IrNode × List Nat)}
    {visited : List IrNode} {i : Nat} (targets : node.targets = []) (notRet : node.isRet = false)
    (lables : LablesHeld (Incoming params) ((node, held) :: rest))
    (written : ∀ i, needs ((node, held) :: rest) i → Written params visited i)
    (needed : needs rest i) : Written params (visited ++ [node]) i := by
  have grown (before : Written params visited i) : Written params (visited ++ [node]) i :=
    before.imp_right fun member => by simp [member]
  have flow (flow : node.Flow) : Written params (visited ++ [node]) i := by
    by_cases dest : node.dest? = some i
    · exact .inr (by simp [dests, dest])
    · exact grown (written i ((needs_flow flow held rest i).mpr (.inr ⟨needed, dest⟩)))
  cases node with
  | label id =>
      obtain member | incoming := lables.1 rfl i needed
      · exact grown (written i member)
      · exact .inl incoming
  | jump => cases targets
  | branch => cases targets
  | ret => cases notRet
  | operation => exact flow trivial
  | call => exact flow trivial

/-- What is still read on a path was written on it before. -/
theorem FunctionCode.needed_written
    (function : FunctionCode params vars scopeN body nodes temps code g)
    (bounded : VarsUpTo params vars) {visited ahead : List IrNode}
    (path : CfgPath (Careful params g.named (functionMarks params code g.temps)) nodes visited
      ahead) :
    ∃ marks, marks <:+ functionMarks params code g.temps ∧ marks.map Prod.fst = ahead ∧
      ∀ i, needs marks i → Written params visited i := by
  have fits := function.fits bounded
  induction path with
  | entry =>
      refine ⟨_, List.suffix_rfl, function.nodes_marked.symm, fun i needed => ?_⟩
      obtain ⟨⟨⟩⟩ | incoming := fits.needed i needed
      exact .inl incoming
  | @step visited node rest next _ careful successor ih =>
      obtain ⟨marks, suffix, same, written⟩ := ih
      obtain ⟨⟨_, held⟩, marks, rfl, rfl, rfl⟩ := List.map_eq_cons_iff.mp same
      have grown {i : Nat} (before : Written params visited i) (node : IrNode) :
          Written params (visited ++ [node]) i :=
        before.imp_right fun member => by simp [member]
      cases successor with
      | next targets notRet =>
          refine ⟨marks, (List.suffix_cons _ _).trans suffix, rfl, fun i needed => ?_⟩
          exact written_next targets notRet (fits.lables.suffix suffix) written needed
      | @target _ _ id target =>
          refine ⟨(functionMarks params code g.temps).dropWhile (·.1 ≠ .label id),
            List.dropWhile_suffix _, ?_, fun i needed => grown ?_ _⟩
          · rw [labelTarget, function.nodes_marked, List.dropWhile_map]
            rfl
          · have member := heldAt_of_needs needed
            obtain same | ⟨name, jump, number⟩ :=
              function.targets_marked bounded (suffix.subset List.mem_cons_self) target
            · rw [same] at member
              exact written i (needs_target target member)
            · exact careful name id jump number i member

end Function

/-- In the nodes of a function no temporary is read before it is written, on all
paths on which every `goto` finds the variables declared at its label. -/
theorem FunctionRun.irFunctionS_reads_written (run : FunctionRun) : ∃ code g,
    FunctionCode run.params run.vars run.scopeN run.body run.nodes run.final.tempC code g ∧
      ReadsWritten (Careful run.params g.named (functionMarks run.params code g.temps))
        run.params run.nodes := by
  obtain ⟨code, g, function⟩ := run.functionCode
  refine ⟨code, g, function, fun visited node rest path i read => ?_⟩
  obtain ⟨marks, _, same, written⟩ := function.needed_written run.vars_upTo path
  obtain ⟨⟨_, held⟩, marks, rfl, rfl, rfl⟩ := List.map_eq_cons_iff.mp same
  exact written i (needs_reads read)

theorem GenState.number_held (g : GenState) (name : CStr) : (g.number name).2.held = g.held := by
  unfold GenState.number
  split <;> rfl

/-! A function with a jump back, and one with a jump past a declaration. -/

/-- A `goto` back to a label behind the declaration of a variable. -/
def backRun : FunctionRun :=
  (FunctionRun.first? (sourceTokens
    "f() \x7b auto i; L: i = 1; goto L; \x7d".toList) "back.b").get (by decide +kernel)

/-- The nodes of that function. -/
def backNodes : List IrNode :=
  [.label 1, .operation 1 .alloc 0 0, .label 2, .operation 2 .const 0 0 1,
    .operation 0 .store 1 2, .jump 2, .operation 3 .const 0 0 0, .ret 3]

/-- `auto i; L: e; goto L;` -/
def isBackBody : List AstNode → Bool
  | [.auto _ _, .lable _, .expr _, .goto _] => true
  | _ => false

/-- In such a body nothing but the variable is declared anywhere. -/
private theorem backBody_held {declared : CStr → Prop} {vars : Vars} {scopeN : AstScope}
    {body : List AstNode} {code : List (IrNode × List Nat)} {g : GenState}
    (shape : isBackBody body = true)
    (generates : Generates declared 0 (.block scopeN body) (.entry 0 vars) code g) :
    ∀ marked ∈ code, ∀ i ∈ marked.2, i = 1 := by
  unfold isBackBody at shape
  split at shape
  case h_2 => cases shape
  cases generates with | block statements =>
  cases statements with | cons auto statements =>
  cases auto
  cases statements with | cons lable statements =>
  cases lable
  cases statements with | cons expr statements =>
  cases expr
  cases statements with | cons goto statements =>
  cases goto
  cases statements
  intro marked member i inside
  simp only [List.mem_append, mem_mark, List.not_mem_nil, or_false, GenState.number_held] at member
  obtain ⟨-, same⟩ | ⟨-, same⟩ | ⟨-, same⟩ | ⟨-, same⟩ := member <;> rw [same] at inside
  · cases inside
  all_goals exact List.mem_singleton.mp inside

/-- Past the declaration every step is careful. -/
private theorem backRun_careful {code : List (IrNode × List Nat)} {g : GenState} {visited : List IrNode}
    (function : FunctionCode backRun.params backRun.vars backRun.scopeN backRun.body backRun.nodes
      backRun.final.tempC code g) (declared : .operation 1 .alloc 0 0 ∈ visited) (node : IrNode) :
    Careful backRun.params g.named (functionMarks backRun.params code g.temps) visited node := by
  have noParams : backRun.params = 0 := by decide +kernel
  rw [noParams] at function ⊢
  have marks := backBody_held (by decide +kernel) function.generates
  intro name id _ _ i member
  have held : i = 1 := by
    unfold heldAt at member
    split at member
    next marked found =>
      obtain (entry | inside) | last : _ ∨ _ := by
        simpa only [functionMarks, List.mem_append] using List.mem_of_find?_eq_some found
      · rw [(mem_mark.mp entry).2] at member
        cases member
      · exact marks marked inside i member
      · rw [(mem_mark.mp last).2] at member
        cases member
    next => cases member
  rw [held]
  exact .inr (List.mem_filterMap.mpr ⟨_, declared, rfl⟩)

/-- On the path once around, what the assignment reads was written. -/
theorem irFunctionS_reads_written_goto : ∃ code g visited rest,
    FunctionCode backRun.params backRun.vars backRun.scopeN backRun.body backRun.nodes
      backRun.final.tempC code g ∧
    CfgPath (Careful backRun.params g.named (functionMarks backRun.params code g.temps))
      backRun.nodes visited (.operation 0 .store 1 2 :: rest) ∧
    .jump 2 ∈ visited ∧ Written backRun.params visited 1 ∧ Written backRun.params visited 2 := by
  obtain ⟨code, g, function, written⟩ := backRun.irFunctionS_reads_written
  have careful {visited : List IrNode} := @backRun_careful code g visited function
  have nodes : backRun.nodes = backNodes := by decide +kernel
  have start : CfgPath (Careful backRun.params g.named (functionMarks backRun.params code g.temps))
      backRun.nodes [] backNodes := nodes ▸ .entry
  have declares := start.step nofun (.next rfl rfl)
  have lable := declares.step nofun (.next rfl rfl)
  have once := lable.step (careful (by decide) _) (.next rfl rfl)
  have stores := once.step (careful (by decide) _) (.next rfl rfl)
  have jumps := stores.step (careful (by decide) _) (.next rfl rfl)
  have back := jumps.step (careful (by decide) _) (.target (List.mem_singleton.mpr rfl))
  rw [nodes] at back
  have again := back.step (careful (by decide) _) (.next rfl rfl)
  have twice := again.step (careful (by decide) _) (.next rfl rfl)
  rw [← nodes] at twice
  have reads := written _ _ _ twice
  exact ⟨code, g, _, _, function, twice, by decide, reads 1 (by decide), reads 2 (by decide)⟩

/-- A `goto` past the declaration of a variable. -/
def gotoRun : FunctionRun :=
  (FunctionRun.first? (sourceTokens
    "f() \x7b goto L; auto x; L: x = 1; \x7d".toList) "goto.b").get (by decide +kernel)

/-- The nodes of that function. -/
def gotoNodes : List IrNode :=
  [.label 1, .jump 2, .operation 1 .alloc 0 0, .label 2, .operation 2 .const 0 0 1,
    .operation 0 .store 1 2, .operation 3 .const 0 0 0, .ret 3]

/-- The path of the jump comes to the store, whose address was never written. -/
theorem irFunctionS_reads_unwritten :
    ¬ ReadsWritten (fun _ _ => True) gotoRun.params gotoRun.nodes := by
  rw [show gotoRun.nodes = gotoNodes by decide +kernel,
    show gotoRun.params = 0 by decide +kernel]
  intro all
  have start : CfgPath (fun _ _ => True) gotoNodes [] gotoNodes := .entry
  have entered := start.step trivial (.next rfl rfl)
  have jumped := entered.step trivial (.target (List.mem_singleton.mpr rfl))
  have landed := jumped.step trivial (.next rfl rfl)
  have assigned := landed.step trivial (.next rfl rfl)
  obtain ⟨low, high⟩ | written := all _ _ _ assigned 1 (by decide)
  · omega
  · exact absurd written (by decide)

end Trident
