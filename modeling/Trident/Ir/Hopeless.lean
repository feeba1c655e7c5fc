import Trident.Ir.Operators

/-! Trees from which the generator never returns: one statement it cannot translate is
enough, wherever it stands. -/

set_option autoImplicit false

namespace Trident

open Foundation

/-- The generator returns from the statement in no scope. -/
def AstNode.Hopeless (node : AstNode) : Prop := ∀ scope, Never (irStatements node scope)

/-- One of the statements is hopeless. -/
def SomeHopeless (nodes : List AstNode) : Prop := ∃ node ∈ nodes, node.Hopeless

def ChainHopeless (chain : Option AstNode) : Prop :=
  ∀ scope endLabelId, Never (irChain chain scope endLabelId)

section

variable {node condition : AstNode} {nodes : List AstNode} {chain : Option AstNode}
  {scopeN : AstScope}

private theorem irExprF_never (unfit : ∀ resolves, ¬ node.Fit resolves) (scope : List Nat) :
    Never (irExprF node scope) := by
  intro ir t ir' accepted
  have known := (accepted_iff node scope ir).mp ⟨t, ir', accepted⟩
  exact unfit _ known.2.1

theorem AstNode.Hopeless.return_ (unfit : ∀ resolves, ¬ node.Fit resolves) :
    (AstNode.return_ (some node)).Hopeless := by
  intro scope
  rw [irStatements]
  exact Never.first (irExprF_never unfit scope)

private theorem irScopeBody_never (hopeless : SomeHopeless nodes) (scope : List Nat) :
    Never (irScopeBody nodes scope) := by
  obtain ⟨node, member, hopeless⟩ := hopeless
  induction nodes with
  | nil => cases member
  | cons first rest ih =>
      rw [irScopeBody]
      rcases List.mem_cons.mp member with rfl | member
      · exact Never.first (hopeless scope)
      · exact Never.second fun _ => ih member

private theorem irScopeWith_never (hopeless : SomeHopeless nodes) :
    Never (irScopeWith scopeN (irScopeBody nodes scopeN.chain)) :=
  Never.first (irScopeBody_never hopeless _)

private theorem irBody_never (hopeless : SomeHopeless nodes) : Never (irBody (.scope scopeN nodes)) := by
  rw [irBody]
  exact irScopeWith_never hopeless

theorem AstNode.Hopeless.scope (hopeless : SomeHopeless nodes) :
    (AstNode.scope scopeN nodes).Hopeless := by
  intro scope
  rw [irStatements]
  exact irScopeWith_never hopeless

private theorem irIfWith_never {scope : List Nat} {endLabelId : Nat} {body chain : IrM Unit}
    (never : Never body ∨ Never chain) : Never (irIfWith condition scope endLabelId body chain) := by
  apply Never.second; intro _
  apply Never.second; intro _
  apply Never.second; intro _
  apply Never.second; intro _
  apply Never.second; intro _
  rcases never with body | chain
  · exact Never.first body
  · exact Never.second fun _ => Never.second fun _ => Never.second fun _ => chain

theorem AstNode.Hopeless.if_ (never : SomeHopeless nodes ∨ ChainHopeless chain) :
    (AstNode.if_ condition (.scope scopeN nodes) chain).Hopeless := by
  intro scope
  rw [irStatements]
  apply Never.second; intro scope
  apply Never.second; intro endLabelId
  apply Never.first
  exact irIfWith_never (never.imp irBody_never fun hopeless => hopeless scope endLabelId)

theorem ChainHopeless.elseIf (never : SomeHopeless nodes ∨ ChainHopeless chain) :
    ChainHopeless (some (.elseIf condition (.scope scopeN nodes) chain)) := by
  intro scope endLabelId
  rw [irChain, irIfChainS]
  exact irIfWith_never (never.imp irBody_never fun hopeless => hopeless scope endLabelId)

theorem ChainHopeless.else_ (hopeless : SomeHopeless nodes) :
    ChainHopeless (some (.else_ scopeN nodes)) := by
  intro scope endLabelId
  rw [irChain, irIfChainS]
  exact irScopeWith_never hopeless

theorem AstNode.Hopeless.while_ (hopeless : SomeHopeless nodes) :
    (AstNode.while_ condition (.scope scopeN nodes)).Hopeless := by
  intro scope
  rw [irStatements]
  apply Never.second; intro scope
  apply Never.second; intro _
  apply Never.second; intro _
  apply Never.second; intro _
  apply Never.second; intro _
  apply Never.second; intro _
  apply Never.second; intro _
  apply Never.second; intro _
  exact Never.first (irBody_never hopeless)

/-- A function with a hopeless statement in its body. -/
def AstNode.HoldsHopeless : AstNode → Prop
  | .function _ _ _ _ (.scope _ nodes) => SomeHopeless nodes
  | _ => False

private theorem irFunctionS_never {name : CStr} {paramsTab lableTab params : Nat}
    (hopeless : SomeHopeless nodes) :
    Never (irFunctionS (.function name paramsTab lableTab params (.scope scopeN nodes))) := by
  apply Never.second; intro _
  apply Never.second; intro _
  apply Never.second; intro _
  apply Never.second; intro _
  exact Never.first (irScopeWith_never hopeless)

theorem genIr_never {module : String} {ast : List AstNode} (hopeless : ∃ node ∈ ast, node.HoldsHopeless) :
    Never (genIr module ast) := by
  obtain ⟨node, member, hopeless⟩ := hopeless
  apply Never.second; intro _
  induction ast with
  | nil => cases member
  | cons first rest ih =>
      rcases List.mem_cons.mp member with rfl | member
      · match node, hopeless with
        | .function name paramsTab lableTab params (.scope scopeN nodes), hopeless =>
            rw [genIrLoop]
            exact Never.first (irFunctionS_never hopeless)
      · have others := ih member
        cases first with
        | function => exact Never.second fun _ => Never.second fun _ => others
        | global | extrn => exact Never.second fun _ => others
        | _ => exact others

end

end Trident
