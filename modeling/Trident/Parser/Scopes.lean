import Trident.Parser.Built

/-! The parser builds the trees described by `Built`, and fills the tables of the
scopes they belong to. -/

set_option autoImplicit false

namespace Trident

open Foundation

/-! How the tables grow, and what a phrase that was parsed leaves in them. -/

/-- What parsing does to the hash sets: `own` receives the variables `autos`,
the label table receives `lables`, and other sets that exist stay as they are. -/
structure Extends (own lableTab : Nat) (autos lables : List CStr) (before after : HsHeap) :
    Prop where
  next_le : before.next ≤ after.next
  kept : ∀ id : Nat, id < before.next → id ≠ own → id ≠ lableTab →
    after.sets id = before.sets id
  autos_in : ∀ names, before.Declares own autoInfo names →
    after.Declares own autoInfo (names ++ autos)
  lables_in : ∀ names, before.Declares lableTab lableInfo names →
    after.Declares lableTab lableInfo (names ++ lables)
  own_kept : autos = [] → after.sets own = before.sets own

theorem HsHeap.Declares.congr {heap heap' : HsHeap} {id : Nat} {info : VarInfo}
    {names : List CStr} (declares : heap.Declares id info names)
    (same : heap'.sets id = heap.sets id) : heap'.Declares id info names := by
  obtain ⟨table, stored, entries⟩ := declares
  exact ⟨table, same.trans stored, entries⟩

theorem HsHeap.Declares.put {heap : HsHeap} {id : Nat} {info : VarInfo} {names : List CStr}
    {table : Hs} {name : Name} (declares : heap.Declares id info names)
    (stored : heap.sets id = some table) :
    (heap.write id (table.put name info)).Declares id info (names ++ [some name]) := by
  obtain ⟨table', stored', entries⟩ := declares
  obtain rfl : table' = table := by simpa [stored] using stored'.symm
  refine ⟨table'.put name info, by simp [HsHeap.write], fun other => ?_⟩
  rw [Hs.get_put, entries]
  by_cases same : cstr other = cstr name
  · have found : Names (names ++ [some name]) (some other) :=
      ⟨some name, by simp, by simp [SameName, same]⟩
    rw [if_pos same, if_pos found]
  · have missed : ¬ Names [some name] (some other) := by
      rintro ⟨stored, member, equal⟩
      cases List.mem_singleton.mp member
      exact same (Option.some.inj equal.2)
    simp [same, names_append, missed]

theorem HsHeap.Declares.fresh (heap : HsHeap) (info : VarInfo) :
    heap.initHashSet.2.Declares heap.next info [] :=
  ⟨{}, by simp [HsHeap.initHashSet], fun name => by simp [Names]⟩

namespace Extends

variable {own lableTab : Nat} {autos lables autos' lables' : List CStr}
  {first middle last : HsHeap}

theorem refl (heap : HsHeap) : Extends own lableTab [] [] heap heap :=
  ⟨Nat.le_refl _, fun _ _ _ _ => rfl, fun _ declares => by simpa using declares,
    fun _ declares => by simpa using declares, fun _ => rfl⟩

theorem trans (left : Extends own lableTab autos lables first middle)
    (right : Extends own lableTab autos' lables' middle last) :
    Extends own lableTab (autos ++ autos') (lables ++ lables') first last where
  next_le := Nat.le_trans left.next_le right.next_le
  kept id old notOwn notLable := by
    rw [right.kept id (Nat.lt_of_lt_of_le old left.next_le) notOwn notLable,
      left.kept id old notOwn notLable]
  autos_in names declares := by
    rw [← List.append_assoc]
    exact right.autos_in _ (left.autos_in _ declares)
  lables_in names declares := by
    rw [← List.append_assoc]
    exact right.lables_in _ (left.lables_in _ declares)
  own_kept none := by
    obtain ⟨none, none'⟩ := List.append_eq_nil_iff.mp none
    rw [right.own_kept none', left.own_kept none]

/-- Seen from the scope around it, a block with a table of its own changes
nothing but the label table. -/
theorem block {heap heap' : HsHeap} {own lableTab : Nat} {autos lables : List CStr}
    (extended : Extends heap.next lableTab autos lables heap.initHashSet.2 heap')
    (ownOld : own < heap.next) (lableOld : lableTab < heap.next) (apart : own ≠ lableTab) :
    Extends own lableTab [] lables heap heap' := by
  have initial : ∀ id : Nat, id < heap.next → heap.initHashSet.2.sets id = heap.sets id :=
    fun id old => Function.update_of_ne (Nat.ne_of_lt old) ..
  have kept : ∀ id : Nat, id < heap.next → id ≠ lableTab → heap'.sets id = heap.sets id :=
    fun id old notLable => by
      rw [extended.kept id (Nat.lt_succ_of_lt old) (Nat.ne_of_lt old) notLable, initial id old]
  refine ⟨Nat.le_of_succ_le extended.next_le, fun id old _ notLable => kept id old notLable,
    fun names declares => ?_, fun names declares => ?_, fun _ => kept own ownOld apart⟩
  · rw [List.append_nil]
    exact declares.congr (kept own ownOld apart)
  · exact extended.lables_in names (declares.congr (initial lableTab lableOld))

end Extends

def ScopePhrase.autos : ScopePhrase → List CStr
  | .stmt node => autoNames [node]
  | .stmts nodes => autoNames nodes
  | .block _ _ => []
  | .chain _ => []

def ScopePhrase.lables : ScopePhrase → List CStr
  | .stmt node => node.lables
  | .stmts nodes => lablesOf nodes
  | .block _ body => lablesOf body
  | .chain rest => lablesOfChain rest

/-- `phrase` was parsed in the scope of `own` on the way from `p` to `p'`. -/
structure Parsed (own : Nat) (scope : List Nat) (phrase : ScopePhrase) (p p' : Parser) :
    Prop where
  extended : Extends own p.tLableTab phrase.autos phrase.lables p.heap p'.heap
  built : Built p'.heap phrase scope p.heap.next p'.heap.next
  lableTab : p'.tLableTab = p.tLableTab
  globalTable : p'.globalTable = p.globalTable
  ast : p'.ast = p.ast

/-- The tables the parser writes to while it is in the scope of `own`. -/
structure Inside (own : Nat) (p : Parser) : Prop where
  own_lt : own < p.heap.next
  lableTab_lt : p.tLableTab < p.heap.next
  apart : own ≠ p.tLableTab

namespace Parsed

variable {own : Nat} {scope : List Nat} {phrase : ScopePhrase} {p q r : Parser}

theorem same_left (same : p.SameTables q) (parsed : Parsed own scope phrase q r) :
    Parsed own scope phrase p r := by
  obtain ⟨heap, table, ast, lables⟩ := same
  obtain ⟨extended, built, lableTab, globalTable, ast'⟩ := parsed
  rw [heap] at extended built
  rw [lables] at extended
  exact ⟨extended, built, lableTab.trans lables, globalTable.trans table, ast'.trans ast⟩

theorem same_right (parsed : Parsed own scope phrase p q) (same : q.SameTables r) :
    Parsed own scope phrase p r := by
  obtain ⟨heap, table, ast, lables⟩ := same
  obtain ⟨extended, built, lableTab, globalTable, ast'⟩ := parsed
  rw [← heap] at extended built
  exact ⟨extended, built, lables.trans lableTab, table.trans globalTable, ast.trans ast'⟩

theorem nothing (same : p.SameTables q) : Parsed own scope (.stmts []) p q :=
  same_right ⟨.refl _, .nil, rfl, rfl, rfl⟩ same

/-- A statement that touches no table. -/
theorem plain {node : AstNode} (same : p.SameTables q)
    (built : ∀ lo, Built q.heap (.stmt node) scope lo lo) (autos : autoNames [node] = [])
    (lables : node.lables = []) : Parsed own scope (.stmt node) p q := by
  obtain ⟨heap, table, ast, lableTab⟩ := same
  refine ⟨?_, heap ▸ built _, lableTab, table, ast⟩
  rw [heap, ScopePhrase.autos, ScopePhrase.lables, autos, lables]
  exact .refl _

theorem inside (parsed : Parsed own scope phrase p q) (inside : Inside own p) :
    Inside own q :=
  ⟨Nat.lt_of_lt_of_le inside.own_lt parsed.extended.next_le,
    parsed.lableTab ▸ Nat.lt_of_lt_of_le inside.lableTab_lt parsed.extended.next_le,
    parsed.lableTab ▸ inside.apart⟩

/-- What was built before stays built while more of the same scope is parsed. -/
theorem built_later {phrase' : ScopePhrase} (parsed : Parsed own scope phrase p q)
    (inside : Inside own p) (later : Parsed own scope phrase' q r) :
    Built r.heap phrase scope p.heap.next q.heap.next := by
  refine parsed.built.congr fun id lower upper => later.extended.kept id upper ?_ ?_
  · exact Nat.ne_of_gt (Nat.lt_of_lt_of_le inside.own_lt lower)
  · rw [parsed.lableTab]
    exact Nat.ne_of_gt (Nat.lt_of_lt_of_le inside.lableTab_lt lower)

theorem append {first second : List AstNode} (inside : Inside own p)
    (left : Parsed own scope (.stmts first) p q) (right : Parsed own scope (.stmts second) q r) :
    Parsed own scope (.stmts (first ++ second)) p r where
  extended := by
    simp only [ScopePhrase.autos, ScopePhrase.lables, autoNames_append, lablesOf_append]
    exact left.extended.trans (left.lableTab ▸ right.extended)
  built := (left.built_later inside right).append right.built
  lableTab := right.lableTab.trans left.lableTab
  globalTable := right.globalTable.trans left.globalTable
  ast := right.ast.trans left.ast

theorem single {node : AstNode} (parsed : Parsed own scope (.stmt node) p q) :
    Parsed own scope (.stmts [node]) p q := by
  obtain ⟨extended, built, lableTab, globalTable, ast⟩ := parsed
  refine ⟨?_, built.single, lableTab, globalTable, ast⟩
  have lables : lablesOf [node] = node.lables := List.append_nil _
  rw [ScopePhrase.lables, lables]
  exact extended

/-- A block was parsed after its table was made. -/
theorem block {body : List AstNode} {made : Parser} (inside : Inside own p)
    (heap : made.heap = p.heap.initHashSet.2) (tables : made.tLableTab = p.tLableTab)
    (global : made.globalTable = p.globalTable) (ast : made.ast = p.ast)
    (parsed : Parsed p.heap.next (p.heap.next :: scope) (.stmts body) made q) :
    Parsed own scope (.block ⟨p.heap.next, scope⟩ body) p q := by
  obtain ⟨extended, built, lableTab, globalTable, ast'⟩ := parsed
  rw [heap] at extended built
  rw [tables] at extended
  refine ⟨extended.block inside.own_lt inside.lableTab_lt inside.apart, .block ?_ built,
    lableTab.trans tables, globalTable.trans global, ast'.trans ast⟩
  exact extended.autos_in [] (.fresh p.heap autoInfo)

end Parsed

/-! Writing to the tables, and functions that leave them alone. -/

theorem Inside.of_same {own : Nat} {p q : Parser} (inside : Inside own p)
    (same : p.SameTables q) : Inside own q := by
  obtain ⟨heap, _, _, lables⟩ := same
  exact ⟨heap ▸ inside.own_lt, by rw [heap, lables]; exact inside.lableTab_lt,
    lables ▸ inside.apart⟩

/-- The new table of a block is one that the parser can write to. -/
theorem Inside.made {own : Nat} {p made : Parser} (inside : Inside own p)
    (heap : made.heap = p.heap.initHashSet.2) (tables : made.tLableTab = p.tLableTab) :
    Inside p.heap.next made := by
  have next : made.heap.next = p.heap.next + 1 := by rw [heap]; rfl
  exact ⟨by rw [next]; exact Nat.lt_succ_self _,
    by rw [next, tables]; exact Nat.lt_succ_of_lt inside.lableTab_lt,
    by rw [tables]; exact Nat.ne_of_gt inside.lableTab_lt⟩

theorem putToHashSet_ok {id : Nat} {name : CStr} {info : VarInfo} {p p' : Parser} {u : Unit}
    (accepted : putToHashSet id name info p = .ok u p') :
    ∃ name' table, name = some name' ∧ p.heap.sets id = some table ∧
      p' = { p with heap := p.heap.write id (table.put name' info) } := by
  rw [putToHashSet] at accepted
  obtain ⟨_, _, got, rest⟩ := bind_eq_ok.mp accepted
  cases got
  cases name with
  | none => cases rest
  | some name' =>
      cases stored : p.heap.sets id with
      | none =>
          rw [stored] at rest
          cases rest
      | some table =>
          rw [stored] at rest
          cases rest
          exact ⟨name', table, rfl, rfl, rfl⟩

private theorem addNode_ok {tail tail' : Option (List AstNode)} {node : Option AstNode} {p p' : Parser}
    (accepted : addNode tail node p = .ok tail' p') :
    p' = p ∧ ∃ body node', tail = some body ∧ node = some node' ∧
      tail' = some (body ++ [node']) := by
  cases node with
  | none => cases accepted
  | some node =>
      cases tail with
      | none => cases accepted
      | some body =>
          cases accepted
          exact ⟨rfl, body, node, rfl, rfl, rfl⟩

namespace SameTables

theorem parseAutoSize : Steps Parser.SameTables parseAutoSize := by
  refine .bind (isKind _) fun bracket => ?_
  cases bracket
  · exact .pure _
  · exact .bind skip fun _ => .bind tokField fun _ => .bind (expectAndConsume _) fun _ =>
      .bind (expectAndConsume _) fun _ => .pure _

theorem parseGotoS : Steps Parser.SameTables parseGotoS :=
  .bind (expectAndConsume _) fun _ => .bind tokField fun _ => .bind skip fun _ =>
    .bind (expectAndConsume _) fun _ => .pure _

theorem parseReturnS (fuel : Nat) : Steps Parser.SameTables (parseReturnS fuel) :=
  .bind (expectAndConsume _) fun _ => .bind (parseExprF _ _) fun _ =>
    .bind (expectAndConsume _) fun _ => .pure _

end SameTables

/-! Statements without statements inside. -/

section Statements

variable {own : Nat} {scope : List Nat} {p p' : Parser} {fuel : Nat}

theorem Parsed.auto {name : Name} {size : Nat} {table : Hs} (inside : Inside own p)
    (stored : p.heap.sets own = some table) :
    Parsed own scope (.stmt (.auto (some name) size)) p
      { p with heap := p.heap.write own (table.put name autoInfo) } where
  extended := by
    refine ⟨Nat.le_refl _, fun id _ notOwn _ => Function.update_of_ne notOwn ..,
      fun names declares => declares.put stored, fun names declares => ?_, nofun⟩
    have same := Function.update_of_ne (f := p.heap.sets) inside.apart.symm
      (some (table.put name autoInfo))
    simpa [ScopePhrase.lables, AstNode.lables] using declares.congr same
  built := .auto
  lableTab := rfl
  globalTable := rfl
  ast := rfl

theorem Parsed.lable {name : Name} {table : Hs} (inside : Inside own p)
    (stored : p.heap.sets p.tLableTab = some table) :
    Parsed own scope (.stmt (.lable (some name))) p
      { p with heap := p.heap.write p.tLableTab (table.put name lableInfo) } where
  extended := by
    have same := Function.update_of_ne (f := p.heap.sets) inside.apart
      (some (table.put name lableInfo))
    refine ⟨Nat.le_refl _, fun id _ _ notLable => Function.update_of_ne notLable ..,
      fun names declares => ?_, fun names declares => declares.put stored, fun _ => same⟩
    simpa [ScopePhrase.autos, autoNames] using declares.congr same
  built := .lable
  lableTab := rfl
  globalTable := rfl
  ast := rfl

private theorem parseAutoLoop_ok (scope : List Nat) {tail tail' : Option (List AstNode)} (inside : Inside own p)
    (accepted : parseAutoLoop fuel own tail p = .ok tail' p') :
    ∃ body news, tail = some body ∧ tail' = some (body ++ news) ∧
      Parsed own scope (.stmts news) p p' := by
  induction fuel generalizing tail p with
  | zero => cases accepted
  | succ fuel ih =>
      obtain ⟨token, p₁, read, accepted⟩ := bind_eq_ok.mp accepted
      obtain ⟨_, p₂, expected, accepted⟩ := bind_eq_ok.mp accepted
      obtain ⟨size, p₃, sized, accepted⟩ := bind_eq_ok.mp accepted
      obtain ⟨_, p₄, stored, accepted⟩ := bind_eq_ok.mp accepted
      obtain ⟨tail₁, p₅, added, accepted⟩ := bind_eq_ok.mp accepted
      obtain ⟨comma, p₆, peeked, accepted⟩ := bind_eq_ok.mp accepted
      have same : p.SameTables p₃ :=
        ((SameTables.tokField.of_ok read).trans
          ((SameTables.expectAndConsume _).of_ok expected)).trans
            (SameTables.parseAutoSize.of_ok sized)
      obtain ⟨name, table, named, present, rfl⟩ := putToHashSet_ok stored
      obtain ⟨rfl, body, node, rfl, new, rfl⟩ := addNode_ok added
      cases new
      have first : Parsed own scope (.stmts [.auto token.lexeme size]) p p₆ := by
        rw [named]
        exact ((Parsed.auto (inside.of_same same) present).same_left same).single.same_right
          ((SameTables.isKind _).of_ok peeked)
      cases comma with
      | false =>
          cases accepted
          exact ⟨body, [.auto token.lexeme size], rfl, rfl, first⟩
      | true =>
          obtain ⟨_, p₇, skipped, accepted⟩ := bind_eq_ok.mp accepted
          have first := first.same_right (SameTables.skip.of_ok skipped)
          obtain ⟨body', news, grown, rfl, rest⟩ := ih (first.inside inside) accepted
          cases grown
          exact ⟨body, .auto token.lexeme size :: news, rfl, by simp,
            first.append inside rest⟩

private theorem parseAutoS_ok {tail tail' : Option (List AstNode)} (inside : Inside own p)
    (accepted : parseAutoS fuel own tail p = .ok tail' p') :
    ∃ body news, tail = some body ∧ tail' = some (body ++ news) ∧
      Parsed own scope (.stmts news) p p' := by
  obtain ⟨_, p₁, started, accepted⟩ := bind_eq_ok.mp accepted
  obtain ⟨tail₁, p₂, looped, accepted⟩ := bind_eq_ok.mp accepted
  obtain ⟨_, p₃, ended, accepted⟩ := bind_eq_ok.mp accepted
  cases accepted
  have same := (SameTables.expectAndConsume _).of_ok started
  obtain ⟨body, news, rfl, rfl, parsed⟩ :=
    parseAutoLoop_ok scope (inside.of_same same) looped
  exact ⟨body, news, rfl, rfl,
    (parsed.same_left same).same_right ((SameTables.expectAndConsume _).of_ok ended)⟩

private theorem parseExtrnLoop_ok {tail tail' : Option (List AstNode)}
    (accepted : parseExtrnLoop fuel tail p = .ok tail' p') :
    ∃ body, ∃ names : List CStr, tail = some body ∧
      tail' = some (body ++ names.map .extrn) ∧ p.SameTables p' := by
  induction fuel generalizing tail p with
  | zero => cases accepted
  | succ fuel ih =>
      obtain ⟨token, p₁, read, accepted⟩ := bind_eq_ok.mp accepted
      obtain ⟨_, p₂, skipped, accepted⟩ := bind_eq_ok.mp accepted
      obtain ⟨comma, p₃, peeked, accepted⟩ := bind_eq_ok.mp accepted
      have same : p.SameTables p₃ :=
        ((SameTables.tokField.of_ok read).trans (SameTables.skip.of_ok skipped)).trans
          ((SameTables.isKind _).of_ok peeked)
      have rest : ∀ q, p.SameTables q →
          (do
            let bodyTail ← addNode tail (some (.extrn token.lexeme))
            if ← isKind .semicolon then
              return bodyTail
            else
              parseExtrnLoop fuel bodyTail : ParseM _) q = .ok tail' p' →
          ∃ body, ∃ names : List CStr, tail = some body ∧
            tail' = some (body ++ names.map .extrn) ∧ p.SameTables p' := by
        intro q same accepted
        obtain ⟨tail₁, p₅, added, accepted⟩ := bind_eq_ok.mp accepted
        obtain ⟨rfl, body, node, rfl, new, rfl⟩ := addNode_ok added
        cases new
        obtain ⟨semicolon, p₆, peeked, accepted⟩ := bind_eq_ok.mp accepted
        have same := same.trans ((SameTables.isKind _).of_ok peeked)
        cases semicolon with
        | true =>
            cases accepted
            exact ⟨body, [token.lexeme], rfl, rfl, same⟩
        | false =>
            obtain ⟨body', names, grown, rfl, later⟩ := ih accepted
            cases grown
            exact ⟨body, token.lexeme :: names, rfl, by simp, same.trans later⟩
      cases comma with
      | false => exact rest p₃ same accepted
      | true =>
          obtain ⟨_, p₄, skipped, accepted⟩ := bind_eq_ok.mp accepted
          exact rest p₄ (same.trans (SameTables.skip.of_ok skipped)) accepted

theorem parseExtrnS_ok {tail tail' : Option (List AstNode)}
    (accepted : parseExtrnS fuel tail p = .ok tail' p') :
    ∃ body, ∃ names : List CStr, tail = some body ∧
      tail' = some (body ++ names.map .extrn) ∧ p.SameTables p' := by
  obtain ⟨_, p₁, started, accepted⟩ := bind_eq_ok.mp accepted
  obtain ⟨tail₁, p₂, looped, accepted⟩ := bind_eq_ok.mp accepted
  obtain ⟨_, p₃, ended, accepted⟩ := bind_eq_ok.mp accepted
  cases accepted
  obtain ⟨body, names, rfl, rfl, same⟩ := parseExtrnLoop_ok looped
  exact ⟨body, names, rfl, rfl, (((SameTables.expectAndConsume _).of_ok started).trans same).trans
    ((SameTables.expectAndConsume _).of_ok ended)⟩

private theorem lablesOf_extrns {names : List CStr} : lablesOf (names.map .extrn) = [] := by
  induction names with
  | nil => rfl
  | cons name rest ih => exact ih

private theorem built_extrns {heap : HsHeap} {names : List CStr} {lo : Nat} :
    Built heap (.stmts (names.map .extrn)) scope lo lo := by
  induction names with
  | nil => exact .nil
  | cons name rest ih => exact .cons .extrn ih

theorem Parsed.extrns {names : List CStr} (same : p.SameTables p') :
    Parsed own scope (.stmts (names.map .extrn)) p p' := by
  obtain ⟨heap, table, ast, lableTab⟩ := same
  refine ⟨?_, heap ▸ built_extrns, lableTab, table, ast⟩
  have autos : autoNames (names.map .extrn) = [] := by
    simp [autoNames]
  rw [heap, ScopePhrase.autos, ScopePhrase.lables, autos, lablesOf_extrns]
  exact .refl _

private theorem parseExprS_ok {stmt : Option AstNode} (accepted : parseExprS fuel p = .ok stmt p') :
    p.SameTables p' ∧ (stmt = none ∨ ∃ node, stmt = some (.expr node)) := by
  obtain ⟨comma, p₁, peeked, accepted⟩ := bind_eq_ok.mp accepted
  have same := (SameTables.isKind _).of_ok peeked
  cases comma with
  | true =>
      obtain ⟨_, p₂, skipped, accepted⟩ := bind_eq_ok.mp accepted
      cases accepted
      exact ⟨same.trans (SameTables.skip.of_ok skipped), .inl rfl⟩
  | false =>
      obtain ⟨node, p₂, parsed, accepted⟩ := bind_eq_ok.mp accepted
      obtain ⟨_, p₃, ended, accepted⟩ := bind_eq_ok.mp accepted
      cases accepted
      exact ⟨(same.trans ((SameTables.parseExprF _ _).of_ok parsed)).trans
        ((SameTables.expectAndConsume _).of_ok ended), .inr ⟨node, rfl⟩⟩

private theorem parseGotoS_ok {node : AstNode} (accepted : parseGotoS p = .ok node p') :
    p.SameTables p' ∧ ∃ name, node = .goto name := by
  refine ⟨SameTables.parseGotoS.of_ok accepted, ?_⟩
  obtain ⟨_, p₁, _, accepted⟩ := bind_eq_ok.mp accepted
  obtain ⟨token, p₂, _, accepted⟩ := bind_eq_ok.mp accepted
  obtain ⟨_, p₃, _, accepted⟩ := bind_eq_ok.mp accepted
  obtain ⟨_, p₄, _, accepted⟩ := bind_eq_ok.mp accepted
  cases accepted
  exact ⟨token.lexeme, rfl⟩

private theorem parseReturnS_ok {node : AstNode} (accepted : parseReturnS fuel p = .ok node p') :
    p.SameTables p' ∧ ∃ value, node = .return_ (some value) := by
  refine ⟨(SameTables.parseReturnS _).of_ok accepted, ?_⟩
  obtain ⟨_, p₁, _, accepted⟩ := bind_eq_ok.mp accepted
  obtain ⟨value, p₂, _, accepted⟩ := bind_eq_ok.mp accepted
  obtain ⟨_, p₃, _, accepted⟩ := bind_eq_ok.mp accepted
  cases accepted
  exact ⟨value, rfl⟩

private theorem parseLableS_ok (scope : List Nat) {node : AstNode} (inside : Inside own p)
    (accepted : parseLableS p = .ok node p') :
    ∃ name, node = .lable name ∧ Parsed own scope (.stmt (.lable name)) p p' := by
  obtain ⟨token, p₁, read, accepted⟩ := bind_eq_ok.mp accepted
  obtain ⟨_, _, got, accepted⟩ := bind_eq_ok.mp accepted
  cases got
  obtain ⟨_, p₂, stored, accepted⟩ := bind_eq_ok.mp accepted
  obtain ⟨_, p₃, skipped, accepted⟩ := bind_eq_ok.mp accepted
  obtain ⟨_, p₄, skipped', accepted⟩ := bind_eq_ok.mp accepted
  cases accepted
  have same := SameTables.tokField.of_ok read
  obtain ⟨name, table, named, present, rfl⟩ := putToHashSet_ok stored
  refine ⟨token.lexeme, rfl, ?_⟩
  rw [named]
  exact ((Parsed.lable (inside.of_same same) present).same_left same).same_right
    ((SameTables.skip.of_ok skipped).trans (SameTables.skip.of_ok skipped'))

/-! Nested statements, by induction on the fuel. -/

/-- What a successful run of each of the mutually recursive parsers has built. -/
structure ScopeParsers (fuel : Nat) : Prop where
  statement : ∀ {own parent tail stmt tail' p p'}, Inside own p →
    parseStatementsF fuel (own :: parent) own tail p = .ok (stmt, tail') p' →
    ∃ news, Parsed own (own :: parent) (.stmts news) p p' ∧
      ((∃ node, stmt = some node ∧ news = [node] ∧ tail' = tail) ∨
        stmt = none ∧ (news = [] ∧ tail' = tail ∨
          ∃ body, tail = some body ∧ tail' = some (body ++ news)))
  scope : ∀ {parent symtab node p p'}, Inside symtab p →
    parseScopeF fuel parent symtab p = .ok node p' →
    ∃ body, node = .scope ⟨symtab, parent⟩ body ∧
      Parsed symtab (symtab :: parent) (.stmts body) p p'
  body : ∀ {scopeN : AstScope} {nodes nodes' p p'}, Inside scopeN.symtab p →
    parseScopeBody fuel scopeN nodes p = .ok nodes' p' →
    ∃ news, nodes' = nodes ++ news ∧ Parsed scopeN.symtab scopeN.chain (.stmts news) p p'
  if_ : ∀ {own scope kind node p p'}, Inside own p →
    parseIfS fuel kind scope p = .ok node p' →
    ∃ condition body chain,
      node = (if kind = .if_ then .if_ condition body chain else .elseIf condition body chain) ∧
        Parsed own scope (.stmt (.if_ condition body chain)) p p'
  chain : ∀ {own scope chain p p'}, Inside own p →
    parseIfChain fuel scope p = .ok chain p' → Parsed own scope (.chain chain) p p'
  while_ : ∀ {own scope node p p'}, Inside own p →
    parseWhileS fuel scope p = .ok node p' → Parsed own scope (.stmt node) p p'

theorem parseBlock_ok {parent : List Nat} {node : AstNode} (parsers : ScopeParsers fuel)
    {made : Parser} (inside : Inside own p) (heap : made.heap = p.heap.initHashSet.2)
    (tables : made.tLableTab = p.tLableTab) (global : made.globalTable = p.globalTable)
    (ast : made.ast = p.ast) (accepted : parseScopeF fuel parent p.heap.next made = .ok node p') :
    ∃ body, node = .scope ⟨p.heap.next, parent⟩ body ∧
      Parsed own parent (.block ⟨p.heap.next, parent⟩ body) p p' := by
  obtain ⟨body, rfl, parsed⟩ := parsers.scope (inside.made heap tables) accepted
  exact ⟨body, rfl, Parsed.block inside heap tables global ast parsed⟩

/-- The pieces of an `if` make up the whole. -/
theorem Parsed.if_ {condition : AstNode} {scopeN : AstScope} {body : List AstNode}
    {chain : Option AstNode} {q : Parser} (inside : Inside own p)
    (first : Parsed own scope (.block scopeN body) p q)
    (rest : Parsed own scope (.chain chain) q p') :
    Parsed own scope (.stmt (.if_ condition (.scope scopeN body) chain)) p p' where
  extended := first.extended.trans (first.lableTab ▸ rest.extended)
  built := .if_ (first.built_later inside rest) rest.built
  lableTab := rest.lableTab.trans first.lableTab
  globalTable := rest.globalTable.trans first.globalTable
  ast := rest.ast.trans first.ast

theorem Parsed.elseIf {condition body : AstNode} {chain : Option AstNode}
    (parsed : Parsed own scope (.stmt (.if_ condition body chain)) p p') :
    Parsed own scope (.chain (some (.elseIf condition body chain))) p p' := by
  obtain ⟨extended, built, lableTab, globalTable, ast⟩ := parsed
  refine ⟨extended, ?_, lableTab, globalTable, ast⟩
  cases built with
  | if_ body chain => exact .elseIf body chain

theorem Parsed.while_ {condition : AstNode} {scopeN : AstScope} {body : List AstNode}
    (parsed : Parsed own scope (.block scopeN body) p p') :
    Parsed own scope (.stmt (.while_ condition (.scope scopeN body))) p p' :=
  ⟨parsed.extended, .while_ parsed.built, parsed.lableTab, parsed.globalTable, parsed.ast⟩

theorem Parsed.braces {scopeN : AstScope} {body : List AstNode}
    (parsed : Parsed own scope (.block scopeN body) p p') :
    Parsed own scope (.stmt (.scope scopeN body)) p p' :=
  ⟨parsed.extended, .scope parsed.built, parsed.lableTab, parsed.globalTable, parsed.ast⟩

theorem Parsed.else_ {scopeN : AstScope} {body : List AstNode}
    (parsed : Parsed own scope (.block scopeN body) p p') :
    Parsed own scope (.chain (some (.else_ scopeN body))) p p' :=
  ⟨parsed.extended, .else_ parsed.built, parsed.lableTab, parsed.globalTable, parsed.ast⟩

theorem Parsed.noChain (same : p.SameTables p') : Parsed own scope (.chain none) p p' :=
  same_right ⟨.refl _, .noChain, rfl, rfl, rfl⟩ same

private theorem parseStatementsF_ok {parent : List Nat} {tail tail' : Option (List AstNode)}
    {stmt : Option AstNode} (parsers : ScopeParsers fuel) (inside : Inside own p)
    (accepted : parseStatementsF (fuel + 1) (own :: parent) own tail p = .ok (stmt, tail') p') :
    ∃ news, Parsed own (own :: parent) (.stmts news) p p' ∧
      ((∃ node, stmt = some node ∧ news = [node] ∧ tail' = tail) ∨
        stmt = none ∧ (news = [] ∧ tail' = tail ∨
          ∃ body, tail = some body ∧ tail' = some (body ++ news))) := by
  obtain ⟨token, p₁, read, accepted⟩ := bind_eq_ok.mp accepted
  obtain ⟨next, p₂, peeked, accepted⟩ := bind_eq_ok.mp accepted
  have same := (SameTables.tokField.of_ok read).trans (SameTables.ppeak.of_ok peeked)
  have inside := inside.of_same same
  have exprCase : ∀ {stmt : Option AstNode} {p' : Parser},
      parseExprS fuel p₂ = .ok stmt p' →
      ∃ news, Parsed own (own :: parent) (.stmts news) p p' ∧
        ((∃ node, stmt = some node ∧ news = [node] ∧ tail = tail) ∨
          stmt = none ∧ (news = [] ∧ tail = tail ∨
            ∃ body, tail = some body ∧ tail = some (body ++ news))) := by
    intro stmt p' accepted
    obtain ⟨later, rfl | ⟨node, rfl⟩⟩ := parseExprS_ok accepted
    · exact ⟨[], .nothing (same.trans later), .inr ⟨rfl, .inl ⟨rfl, rfl⟩⟩⟩
    · exact ⟨[_], (Parsed.plain (same.trans later) (fun _ => .expr) rfl rfl).single,
        .inl ⟨_, rfl, rfl, rfl⟩⟩
  cases kind : token.kind <;> simp only [kind] at accepted
  case auto =>
    obtain ⟨tail₁, p₃, parsed, accepted⟩ := bind_eq_ok.mp accepted
    cases accepted
    obtain ⟨body, news, rfl, rfl, built⟩ := parseAutoS_ok inside parsed
    exact ⟨news, built.same_left same, .inr ⟨rfl, .inr ⟨body, rfl, rfl⟩⟩⟩
  case extrn =>
    obtain ⟨tail₁, p₃, parsed, accepted⟩ := bind_eq_ok.mp accepted
    cases accepted
    obtain ⟨body, names, rfl, rfl, later⟩ := parseExtrnS_ok parsed
    exact ⟨_, .extrns (same.trans later), .inr ⟨rfl, .inr ⟨body, rfl, rfl⟩⟩⟩
  case goto =>
    obtain ⟨node, p₃, parsed, accepted⟩ := bind_eq_ok.mp accepted
    cases accepted
    obtain ⟨later, name, rfl⟩ := parseGotoS_ok parsed
    exact ⟨[_], (Parsed.plain (same.trans later) (fun _ => .goto) rfl rfl).single,
      .inl ⟨_, rfl, rfl, rfl⟩⟩
  case oBrace =>
    obtain ⟨symtab, p₃, made, accepted⟩ := bind_eq_ok.mp accepted
    obtain ⟨node, p₄, parsed, accepted⟩ := bind_eq_ok.mp accepted
    cases accepted
    cases made
    obtain ⟨body, rfl, built⟩ :=
      parseBlock_ok parsers inside (by rfl) (by rfl) (by rfl) (by rfl) parsed
    exact ⟨[_], (built.braces.same_left same).single, .inl ⟨_, rfl, rfl, rfl⟩⟩
  case return_ =>
    obtain ⟨node, p₃, parsed, accepted⟩ := bind_eq_ok.mp accepted
    cases accepted
    obtain ⟨later, value, rfl⟩ := parseReturnS_ok parsed
    exact ⟨[_], (Parsed.plain (same.trans later) (fun _ => .return_) rfl rfl).single,
      .inl ⟨_, rfl, rfl, rfl⟩⟩
  case if_ =>
    obtain ⟨node, p₃, parsed, accepted⟩ := bind_eq_ok.mp accepted
    cases accepted
    obtain ⟨condition, body, chain, rfl, built⟩ := parsers.if_ inside parsed
    exact ⟨[_], (built.same_left same).single, .inl ⟨_, rfl, rfl, rfl⟩⟩
  case while_ =>
    obtain ⟨node, p₃, parsed, accepted⟩ := bind_eq_ok.mp accepted
    cases accepted
    exact ⟨[_], ((parsers.while_ inside parsed).same_left same).single,
      .inl ⟨_, rfl, rfl, rfl⟩⟩
  case identifier =>
    split at accepted
    · obtain ⟨node, p₃, parsed, accepted⟩ := bind_eq_ok.mp accepted
      cases accepted
      obtain ⟨name, rfl, built⟩ := parseLableS_ok (own :: parent) inside parsed
      exact ⟨[_], (built.same_left same).single, .inl ⟨_, rfl, rfl, rfl⟩⟩
    · obtain ⟨stmt, p₃, parsed, accepted⟩ := bind_eq_ok.mp accepted
      cases accepted
      exact exprCase parsed
  all_goals
    obtain ⟨stmt, p₃, parsed, accepted⟩ := bind_eq_ok.mp accepted
    cases accepted
    exact exprCase parsed

private theorem parseScopeBody_ok {scopeN : AstScope} {nodes nodes' : List AstNode}
    (parsers : ScopeParsers fuel) (inside : Inside scopeN.symtab p)
    (accepted : parseScopeBody (fuel + 1) scopeN nodes p = .ok nodes' p') :
    ∃ news, nodes' = nodes ++ news ∧ Parsed scopeN.symtab scopeN.chain (.stmts news) p p' := by
  obtain ⟨token, p₁, peeked, accepted⟩ := bind_eq_ok.mp accepted
  have same := SameTables.curr.of_ok peeked
  cases token with
  | none =>
      cases accepted
      exact ⟨[], by simp, .nothing same⟩
  | some token =>
      dsimp only at accepted
      split at accepted
      · cases accepted
        exact ⟨[], by simp, .nothing same⟩
      · obtain ⟨⟨stmt, tail⟩, p₂, parsed, accepted⟩ := bind_eq_ok.mp accepted
        have inside₁ := inside.of_same same
        obtain ⟨news, parsed, outcome⟩ := parsers.statement inside₁ parsed
        have parsed := parsed.same_left same
        have continue_ : ∀ {q : Parser}, q = p₂ →
            parseScopeBody fuel scopeN (nodes ++ news) q = .ok nodes' p' →
            ∃ news, nodes' = nodes ++ news ∧
              Parsed scopeN.symtab scopeN.chain (.stmts news) p p' := by
          rintro q rfl accepted
          obtain ⟨later, rfl, rest⟩ := parsers.body (parsed.inside inside) accepted
          exact ⟨news ++ later, by simp, parsed.append inside rest⟩
        obtain ⟨node, rfl, rfl, rfl⟩ | ⟨rfl, ⟨rfl, rfl⟩ | ⟨body, grown, rfl⟩⟩ := outcome
        · obtain ⟨tail₁, p₃, added, accepted⟩ := bind_eq_ok.mp accepted
          obtain ⟨rfl, body, node', grown, new, rfl⟩ := addNode_ok added
          cases grown
          cases new
          exact continue_ rfl accepted
        · exact continue_ rfl (by simpa using accepted)
        · cases grown
          exact continue_ rfl accepted

private theorem parseIfS_ok {scope : List Nat} {kind : AstKind} {node : AstNode}
    (parsers : ScopeParsers fuel) (inside : Inside own p)
    (accepted : parseIfS (fuel + 1) kind scope p = .ok node p') :
    ∃ condition body chain,
      node = (if kind = .if_ then .if_ condition body chain else .elseIf condition body chain) ∧
        Parsed own scope (.stmt (.if_ condition body chain)) p p' := by
  obtain ⟨_, p₁, expected, accepted⟩ := bind_eq_ok.mp accepted
  obtain ⟨_, p₂, expected', accepted⟩ := bind_eq_ok.mp accepted
  obtain ⟨condition, p₃, parsed, accepted⟩ := bind_eq_ok.mp accepted
  obtain ⟨_, p₄, closed, accepted⟩ := bind_eq_ok.mp accepted
  have same : p.SameTables p₄ :=
    ((((SameTables.expectAndConsume _).of_ok expected).trans
      ((SameTables.expectAndConsume _).of_ok expected')).trans
        ((SameTables.parseExprF _ _).of_ok parsed)).trans
          ((SameTables.expectAndConsume _).of_ok closed)
  have inside := inside.of_same same
  obtain ⟨symtab, p₅, made, accepted⟩ := bind_eq_ok.mp accepted
  cases made
  obtain ⟨bodyNode, p₆, parsed, accepted⟩ := bind_eq_ok.mp accepted
  obtain ⟨body, rfl, first⟩ :=
    parseBlock_ok parsers inside (by rfl) (by rfl) (by rfl) (by rfl) parsed
  obtain ⟨chain, p₇, parsed, accepted⟩ := bind_eq_ok.mp accepted
  have rest := parsers.chain (first.inside inside) parsed
  cases accepted
  exact ⟨condition, _, chain, rfl, (Parsed.if_ inside first rest).same_left same⟩

private theorem parseIfChain_ok {scope : List Nat} {chain : Option AstNode}
    (parsers : ScopeParsers fuel) (inside : Inside own p)
    (accepted : parseIfChain (fuel + 1) scope p = .ok chain p') :
    Parsed own scope (.chain chain) p p' := by
  obtain ⟨isElse, p₁, peeked, accepted⟩ := bind_eq_ok.mp accepted
  have same := (SameTables.isKind _).of_ok peeked
  cases isElse with
  | false =>
      cases accepted
      exact .noChain same
  | true =>
      obtain ⟨_, p₂, skipped, accepted⟩ := bind_eq_ok.mp accepted
      obtain ⟨isIf, p₃, peeked', accepted⟩ := bind_eq_ok.mp accepted
      have same := (same.trans (SameTables.skip.of_ok skipped)).trans
        ((SameTables.isKind _).of_ok peeked')
      have inside := inside.of_same same
      cases isIf with
      | true =>
          obtain ⟨node, p₄, parsed, accepted⟩ := bind_eq_ok.mp accepted
          obtain ⟨condition, body, chain, rfl, built⟩ := parsers.if_ inside parsed
          cases accepted
          exact built.elseIf.same_left same
      | false =>
          obtain ⟨symtab, p₄, made, accepted⟩ := bind_eq_ok.mp accepted
          cases made
          obtain ⟨node, p₅, parsed, accepted⟩ := bind_eq_ok.mp accepted
          obtain ⟨body, rfl, built⟩ :=
          parseBlock_ok parsers inside (by rfl) (by rfl) (by rfl) (by rfl) parsed
          cases accepted
          exact built.else_.same_left same

private theorem parseWhileS_ok {scope : List Nat} {node : AstNode}
    (parsers : ScopeParsers fuel) (inside : Inside own p)
    (accepted : parseWhileS (fuel + 1) scope p = .ok node p') :
    Parsed own scope (.stmt node) p p' := by
  obtain ⟨symtab, p₁, made, accepted⟩ := bind_eq_ok.mp accepted
  cases made
  obtain ⟨_, p₂, expected, accepted⟩ := bind_eq_ok.mp accepted
  obtain ⟨_, p₃, expected', accepted⟩ := bind_eq_ok.mp accepted
  obtain ⟨condition, p₄, parsed, accepted⟩ := bind_eq_ok.mp accepted
  obtain ⟨_, p₅, closed, accepted⟩ := bind_eq_ok.mp accepted
  have same := ((((SameTables.expectAndConsume _).of_ok expected).trans
      ((SameTables.expectAndConsume _).of_ok expected')).trans
        ((SameTables.parseExprF _ _).of_ok parsed)).trans
          ((SameTables.expectAndConsume _).of_ok closed)
  obtain ⟨heap, table, ast, lables⟩ := same
  obtain ⟨bodyNode, p₆, parsed, accepted⟩ := bind_eq_ok.mp accepted
  obtain ⟨body, rfl, built⟩ := parseBlock_ok parsers inside heap lables table ast parsed
  cases accepted
  exact built.while_

theorem scopeParsers (fuel : Nat) : ScopeParsers fuel := by
  induction fuel with
  | zero =>
      constructor <;> (intros; rename_i accepted; cases accepted)
  | succ fuel ih =>
      constructor
      case statement => exact fun inside accepted => parseStatementsF_ok ih inside accepted
      case scope =>
        intro parent symtab node p p' inside accepted
        obtain ⟨_, p₁, opened, accepted⟩ := bind_eq_ok.mp accepted
        obtain ⟨nodes, p₂, parsed, accepted⟩ := bind_eq_ok.mp accepted
        obtain ⟨_, p₃, closed, accepted⟩ := bind_eq_ok.mp accepted
        cases accepted
        have same := (SameTables.expectAndConsume _).of_ok opened
        obtain ⟨news, rfl, parsed⟩ := ih.body (show Inside (AstScope.mk symtab parent).symtab p₁
          from inside.of_same same) parsed
        exact ⟨_, rfl, (parsed.same_left same).same_right
          ((SameTables.expectAndConsume _).of_ok closed)⟩
      case body => exact fun inside accepted => parseScopeBody_ok ih inside accepted
      case if_ => exact fun inside accepted => parseIfS_ok ih inside accepted
      case chain => exact fun inside accepted => parseIfChain_ok ih inside accepted
      case while_ => exact fun inside accepted => parseWhileS_ok ih inside accepted

end Statements

end Trident
