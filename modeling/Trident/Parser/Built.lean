import Trident.Parser.Frame

/-! How the trees that the parser builds are tied to the symbol tables it fills:
which tables belong to which scope, and what they hold. -/

set_option autoImplicit false

namespace Trident

open Foundation

/-- A name of the list, as C string comparison sees it. -/
def Names (names : List CStr) (name : CStr) : Prop := ∃ stored ∈ names, SameName name stored

instance (names : List CStr) (name : CStr) : Decidable (Names names name) :=
  inferInstanceAs (Decidable (∃ stored ∈ names, _))

theorem names_append {first second : List CStr} {name : CStr} :
    Names (first ++ second) name ↔ Names first name ∨ Names second name := by
  simp [Names, or_and_right, exists_or]

theorem not_names_nil (name : CStr) : ¬ Names [] name := by simp [Names]

/-- The entry of an `auto` variable, and that of a label. -/
def autoInfo : VarInfo := { kind := .autoVar }
def lableInfo : VarInfo := { kind := .lableS }

/-- The variables that a list of statements declares in its own scope. -/
def autoNames (nodes : List AstNode) : List CStr :=
  nodes.filterMap fun node =>
    match node with
    | .auto name _ => some name
    | _ => none

mutual

/-- The labels in a statement, in inner scopes too. -/
def AstNode.lables : AstNode → List CStr
  | .lable name => [name]
  | .scope _ body => lablesOf body
  | .else_ _ body => lablesOf body
  | .if_ _ body chain => body.lables ++ lablesOfChain chain
  | .elseIf _ body chain => body.lables ++ lablesOfChain chain
  | .while_ _ body => body.lables
  | _ => []
  termination_by structural node => node

def lablesOf : List AstNode → List CStr
  | [] => []
  | node :: nodes => node.lables ++ lablesOf nodes
  termination_by structural nodes => nodes

def lablesOfChain : Option AstNode → List CStr
  | none => []
  | some node => node.lables
  termination_by structural chain => chain

end

@[simp] theorem lablesOf_append (first second : List AstNode) :
    lablesOf (first ++ second) = lablesOf first ++ lablesOf second := by
  induction first with
  | nil => rfl
  | cons node rest ih =>
      change node.lables ++ lablesOf (rest ++ second) = (node.lables ++ lablesOf rest) ++ _
      rw [ih, List.append_assoc]

@[simp] theorem autoNames_append (first second : List AstNode) :
    autoNames (first ++ second) = autoNames first ++ autoNames second :=
  List.filterMap_append

/-- The set `id` is alive and holds `info` for exactly the given names. -/
def HsHeap.Declares (heap : HsHeap) (id : Nat) (info : VarInfo) (names : List CStr) : Prop :=
  ∃ table, heap.sets id = some table ∧
    ∀ name, table.get name = if Names names (some name) then some info else none

/-- A part of a function body: a statement, a list of them, a braced block, or
what follows an `if`. -/
inductive ScopePhrase where
  | stmt (node : AstNode)
  | stmts (nodes : List AstNode)
  | block (scopeN : AstScope) (body : List AstNode)
  | chain (chain : Option AstNode)

/-- `Built heap phrase scope lo hi`: in the scope given, the phrase is one that
the parser builds; the sets of its own blocks are those from `lo` up to `hi`, in
the order of the text, and each declares the variables of its block. -/
inductive Built (heap : HsHeap) : ScopePhrase → List Nat → Nat → Nat → Prop where
  | return_ {node scope lo} : Built heap (.stmt (.return_ (some node))) scope lo lo
  | expr {node scope lo} : Built heap (.stmt (.expr node)) scope lo lo
  | goto {name scope lo} : Built heap (.stmt (.goto name)) scope lo lo
  | lable {name : Name} {scope lo} : Built heap (.stmt (.lable (some name))) scope lo lo
  | extrn {name scope lo} : Built heap (.stmt (.extrn name)) scope lo lo
  | auto {name : Name} {size scope lo} :
      Built heap (.stmt (.auto (some name) size)) scope lo lo
  | scope {scopeN body scope lo hi} :
      Built heap (.block scopeN body) scope lo hi →
      Built heap (.stmt (.scope scopeN body)) scope lo hi
  | if_ {condition scopeN body chain scope lo mid hi} :
      Built heap (.block scopeN body) scope lo mid → Built heap (.chain chain) scope mid hi →
      Built heap (.stmt (.if_ condition (.scope scopeN body) chain)) scope lo hi
  | while_ {condition scopeN body scope lo hi} :
      Built heap (.block scopeN body) scope lo hi →
      Built heap (.stmt (.while_ condition (.scope scopeN body))) scope lo hi
  | nil {scope lo} : Built heap (.stmts []) scope lo lo
  | cons {node nodes scope lo mid hi} :
      Built heap (.stmt node) scope lo mid → Built heap (.stmts nodes) scope mid hi →
      Built heap (.stmts (node :: nodes)) scope lo hi
  | block {body scope lo hi} :
      heap.Declares lo autoInfo (autoNames body) →
      Built heap (.stmts body) (lo :: scope) (lo + 1) hi →
      Built heap (.block ⟨lo, scope⟩ body) scope lo hi
  | noChain {scope lo} : Built heap (.chain none) scope lo lo
  | elseIf {condition scopeN body chain scope lo mid hi} :
      Built heap (.block scopeN body) scope lo mid → Built heap (.chain chain) scope mid hi →
      Built heap (.chain (some (.elseIf condition (.scope scopeN body) chain))) scope lo hi
  | else_ {scopeN body scope lo hi} :
      Built heap (.block scopeN body) scope lo hi →
      Built heap (.chain (some (.else_ scopeN body))) scope lo hi

namespace Built

variable {heap : HsHeap} {phrase : ScopePhrase} {scope : List Nat} {lo mid hi : Nat}

theorem le (built : Built heap phrase scope lo hi) : lo ≤ hi := by
  induction built <;> omega

theorem congr {heap' : HsHeap} (built : Built heap phrase scope lo hi)
    (same : ∀ id : Nat, lo ≤ id → id < hi → heap'.sets id = heap.sets id) :
    Built heap' phrase scope lo hi := by
  induction built with
  | return_ => exact .return_
  | expr => exact .expr
  | goto => exact .goto
  | lable => exact .lable
  | extrn => exact .extrn
  | auto => exact .auto
  | scope _ ih => exact .scope (ih same)
  | if_ body chain bodyIH chainIH =>
      have low := body.le
      have high := chain.le
      exact .if_ (bodyIH fun id lower upper => same id lower (by omega))
        (chainIH fun id lower upper => same id (by omega) upper)
  | while_ _ ih => exact .while_ (ih same)
  | nil => exact .nil
  | cons first rest firstIH restIH =>
      have low := first.le
      have high := rest.le
      exact .cons (firstIH fun id lower upper => same id lower (by omega))
        (restIH fun id lower upper => same id (by omega) upper)
  | block declares body ih =>
      have high := body.le
      obtain ⟨table, stored, entries⟩ := declares
      exact .block ⟨table, by rw [same _ (Nat.le_refl _) (by omega), stored], entries⟩
        (ih fun id lower upper => same id (by omega) upper)
  | noChain => exact .noChain
  | elseIf body chain bodyIH chainIH =>
      have low := body.le
      have high := chain.le
      exact .elseIf (bodyIH fun id lower upper => same id lower (by omega))
        (chainIH fun id lower upper => same id (by omega) upper)
  | else_ _ ih => exact .else_ (ih same)

theorem scopeN_eq {scopeN : AstScope} {body : List AstNode}
    (built : Built heap (.block scopeN body) scope lo hi) : scopeN = ⟨lo, scope⟩ := by
  cases built
  rfl

theorem append {first second : List AstNode} (left : Built heap (.stmts first) scope lo mid)
    (right : Built heap (.stmts second) scope mid hi) :
    Built heap (.stmts (first ++ second)) scope lo hi := by
  induction first generalizing lo with
  | nil =>
      cases left
      exact right
  | cons node rest ih =>
      cases left with
      | cons head tail => exact .cons head (ih tail)

theorem single {node : AstNode} (built : Built heap (.stmt node) scope lo hi) :
    Built heap (.stmts [node]) scope lo hi := .cons built .nil

theorem of_single {node : AstNode} (built : Built heap (.stmts [node]) scope lo hi) :
    Built heap (.stmt node) scope lo hi := by
  cases built with
  | cons first rest =>
      cases rest
      exact first

end Built

end Trident
