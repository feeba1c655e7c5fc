import Trident.Source.Exec
import Trident.Foundation.Jumps

/-! The meaning of functions with labels. A `goto` leaves all blocks around it, and
the body of the function is entered again at the label. The variables visible
there are those that the text declares before it; if the declaration of one of
them was never executed, it has no storage, and the jump is undefined. -/

set_option autoImplicit false

namespace Trident

open Foundation

variable {σ : Type}

/-- The addresses of the visible variables, and the declarations executed so far. -/
structure Locals where
  env : Env
  passed : List Nat

/-- How the execution of a statement ends. -/
abbrev Ending := Exit Locals CStr Word

/-- The locals behind a block: the variables it has declared are gone. -/
def Locals.leave (locals inner : Locals) : Locals := ⟨locals.env, inner.passed⟩

section

variable (w : World σ) (cell : Nat → Word) (limit : Nat)

/-- A loop whose body is given. -/
def runLoop (condition : AstNode) (body : Locals → StoreM σ Ending) (locals : Locals) :
    StoreM σ Ending :=
  Exit.loop (fun locals => evalCondition w locals.env condition) body limit locals

mutual

/-- A statement with `k` variables declared before it. -/
def runStatement : AstNode → Nat → Locals → StoreM σ Ending
  | .return_ (some node), _, locals => do return .returned (← evalExpr w locals.env node)
  | .expr node, _, locals => do
      let _ ← evalExpr w locals.env node
      return .done locals
  | .auto name _, k, locals => return .done ⟨locals.env.bind name (cell k), k :: locals.passed⟩
  | .extrn _, _, locals => return .done locals
  | .lable _, _, locals => return .done locals
  | .goto name, _, locals => return .jump name locals
  | .scope _ body, k, locals =>
      Exit.andThen (runStatements body k locals) fun inner => return .done (locals.leave inner)
  | .else_ _ body, k, locals =>
      Exit.andThen (runStatements body k locals) fun inner => return .done (locals.leave inner)
  | .if_ condition body chain, k, locals => do
      if ← evalCondition w locals.env condition then runStatement body k locals
      else runChain chain (k + body.autoCount) locals
  | .elseIf condition body chain, k, locals => do
      if ← evalCondition w locals.env condition then runStatement body k locals
      else runChain chain (k + body.autoCount) locals
  | .while_ condition body, k, locals => runLoop w limit condition (runStatement body k) locals
  | _, _, _ => throw .undefined
  termination_by structural node => node

def runStatements : List AstNode → Nat → Locals → StoreM σ Ending
  | [], _, locals => return .done locals
  | node :: nodes, k, locals =>
      Exit.andThen (runStatement node k locals) fun locals' =>
        runStatements nodes (k + node.autoCount) locals'
  termination_by structural nodes => nodes

def runChain : Option AstNode → Nat → Locals → StoreM σ Ending
  | none, _, locals => return .done locals
  | some node, k, locals => runStatement node k locals
  termination_by structural chain => chain

end

mutual

/-- The execution of a statement from the first label `name` in it on. The locals are
those in front of the statement. -/
def landStatement (name : CStr) : AstNode → Nat → Locals → Option (StoreM σ Ending)
  | .lable other, _, locals => if SameName name other then some (return .done locals) else none
  | .scope _ body, k, locals => (landStatements name body k locals).map fun run =>
      Exit.andThen run fun inner => return .done (locals.leave inner)
  | .else_ _ body, k, locals => (landStatements name body k locals).map fun run =>
      Exit.andThen run fun inner => return .done (locals.leave inner)
  | .if_ _ body chain, k, locals =>
      (landStatement name body k locals).or (landChain name chain (k + body.autoCount) locals)
  | .elseIf _ body chain, k, locals =>
      (landStatement name body k locals).or (landChain name chain (k + body.autoCount) locals)
  | .while_ condition body, k, locals => (landStatement name body k locals).map fun run =>
      Exit.andThen run (runLoop w limit condition (runStatement w cell limit body k))
  | _, _, _ => none
  termination_by structural node => node

def landStatements (name : CStr) : List AstNode → Nat → Locals → Option (StoreM σ Ending)
  | [], _, _ => none
  | node :: nodes, k, locals =>
      ((landStatement name node k locals).map fun run =>
        Exit.andThen run fun locals' =>
          runStatements w cell limit nodes (k + node.autoCount) locals').or
        (match node with
        | .auto declared _ =>
            (landStatements name nodes (k + 1) ⟨locals.env.bind declared (cell k), locals.passed⟩).map
              fun run => if k ∈ locals.passed then run else throw .undefined
        | _ => landStatements name nodes (k + node.autoCount) locals)
  termination_by structural nodes => nodes

def landChain (name : CStr) : Option AstNode → Nat → Locals → Option (StoreM σ Ending)
  | none, _, _ => none
  | some node, k, locals => landStatement name node k locals
  termination_by structural chain => chain

end

/-- The body of a function is entered at a label. -/
def enterAt (env : Env) (body : List AstNode) (k : Nat) (name : CStr) (locals : Locals) :
    StoreM σ Ending :=
  (landStatements w cell limit name body k ⟨env, locals.passed⟩).getD (throw .undefined)

/-- A call of a function. Its result is zero if the end of its body is reached. -/
def callLabelled (env : Env) (body : List AstNode) (args : List Word) :
    StoreM σ (Option Word) := do
  enterParams cell args 0
  let exit ← runStatements w cell limit body args.length ⟨env, []⟩ >>=
    Exit.restart (enterAt w cell limit env body args.length) limit
  match exit with
  | .returned value => return some value
  | .done _ => return some (← compute 0)
  | _ => return none

end

end Trident
