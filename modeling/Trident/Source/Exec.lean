import Trident.Source.Eval
import Trident.Foundation.Runs

/-! The meaning of statements and functions. Each variable that the text of a
function declares has a word of its own in the frame, at `cell k` for the one
that has `k` others before it, the parameters being the first. -/

set_option autoImplicit false

namespace Trident

open Foundation

variable {σ : Type}

mutual

/-- The number of variables that a statement declares, in inner scopes too. -/
def AstNode.autoCount : AstNode → Nat
  | .auto .. => 1
  | .scope _ body => autoCountOf body
  | .else_ _ body => autoCountOf body
  | .if_ _ body chain => body.autoCount + autoCountOfChain chain
  | .elseIf _ body chain => body.autoCount + autoCountOfChain chain
  | .while_ _ body => body.autoCount
  | _ => 0
  termination_by structural node => node

def autoCountOf : List AstNode → Nat
  | [] => 0
  | node :: nodes => node.autoCount + autoCountOf nodes
  termination_by structural nodes => nodes

def autoCountOfChain : Option AstNode → Nat
  | none => 0
  | some node => node.autoCount
  termination_by structural chain => chain

end

/-- How the execution of a statement ends: it goes on with the statement after
it, leaves the function, or is cut short in a loop. -/
inductive Outcome where
  | done (env : Env)
  | returned (value : Word)
  | running

/-- `next` after `first`, if control gets there. -/
def andThen (first : StoreM σ Outcome) (next : Env → StoreM σ Outcome) : StoreM σ Outcome := do
  match ← first with
  | .done env => next env
  | outcome => return outcome

/-- A loop, cut short after `limit` iterations. -/
def execLoop (test : StoreM σ Bool) (body : StoreM σ Outcome) (env : Env) :
    Nat → StoreM σ Outcome
  | 0 => return .running
  | limit + 1 => do
      if ← test then andThen body fun _ => execLoop test body env limit
      else return .done env

/-- The variables visible after a declaration. -/
def Env.bind (env : Env) (name : CStr) (addr : Word) : Env :=
  fun other => if SameName other name then addr else env other

def evalCondition (w : World σ) (env : Env) (condition : AstNode) : StoreM σ Bool := do
  testWord (← evalExpr w env condition)

section

variable (w : World σ) (cell : Nat → Word) (limit : Nat)

mutual

/-- A statement with `k` variables declared before it. Only the first branch of
a chain whose condition holds is executed; the variables of a block are gone
after it. -/
def execStatement : AstNode → Nat → Env → StoreM σ Outcome
  | .return_ (some node), _, env => do return .returned (← evalExpr w env node)
  | .expr node, _, env => do
      let _ ← evalExpr w env node
      return .done env
  | .auto name _, k, env => return .done (env.bind name (cell k))
  | .extrn _, _, env => return .done env
  | .scope _ body, k, env => andThen (execStatements body k env) fun _ => return .done env
  | .else_ _ body, k, env => andThen (execStatements body k env) fun _ => return .done env
  | .if_ condition body chain, k, env => do
      if ← evalCondition w env condition then execStatement body k env
      else execChain chain (k + body.autoCount) env
  | .elseIf condition body chain, k, env => do
      if ← evalCondition w env condition then execStatement body k env
      else execChain chain (k + body.autoCount) env
  | .while_ condition body, k, env =>
      execLoop (evalCondition w env condition) (execStatement body k env) env limit
  | _, _, _ => throw .undefined
  termination_by structural node => node

def execStatements : List AstNode → Nat → Env → StoreM σ Outcome
  | [], _, env => return .done env
  | node :: nodes, k, env =>
      andThen (execStatement node k env) fun env' =>
        execStatements nodes (k + node.autoCount) env'
  termination_by structural nodes => nodes

def execChain : Option AstNode → Nat → Env → StoreM σ Outcome
  | none, _, env => return .done env
  | some node, k, env => execStatement node k env
  termination_by structural chain => chain

end

/-- The parameters from the `k`th on receive their arguments. -/
def enterParams : List Word → Nat → StoreM σ Unit
  | [], _ => return
  | arg :: args, k => do
      storeWord (cell k) arg
      let _ ← compute (cell k)
      enterParams args (k + 1)

/-- A call of a function. Its result is zero if the end of its body is reached. -/
def callFunction (env : Env) (body : List AstNode) (args : List Word) :
    StoreM σ (Option Word) := do
  enterParams cell args 0
  match ← execStatements w cell limit body args.length env with
  | .returned value => return some value
  | .done _ => return some (← compute 0)
  | .running => return none

end

end Trident
