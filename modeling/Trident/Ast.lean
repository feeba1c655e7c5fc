import Trident.Token
import Mathlib.Logic.Function.Basic

/-! Syntax trees and symbol tables, as `ast.h` declares them. A hash set is
known by its identity: a table is filled by the parser, its entries are
updated by the IR generator, and it is freed when its scope is left. -/

set_option autoImplicit false

namespace Trident

/-- Two strings that C string comparison does not tell apart. -/
def SameName (left right : CStr) : Prop := left.isSome ∧ left.map cstr = right.map cstr

instance (left right : CStr) : Decidable (SameName left right) :=
  inferInstanceAs (Decidable (_ ∧ _))

inductive VarKind where
  | autoVar | globalVar | paramVar | lableS
  deriving DecidableEq, Repr

/-- `VarInfo`. A `tempDest` of zero means that nothing was assigned yet. -/
structure VarInfo where
  kind : VarKind
  tempDest : Nat := 0
  deriving DecidableEq, Repr

/-- The contents of a hash set, a finite map on C strings. -/
structure Hs where
  entries : List (Name × VarInfo) := []
  deriving DecidableEq, Repr

namespace Hs

def get (table : Hs) (name : Name) : Option VarInfo :=
  (table.entries.find? fun entry => entry.1 == cstr name).map (·.2)

def put (table : Hs) (name : Name) (info : VarInfo) : Hs :=
  ⟨(cstr name, info) :: table.entries.filter fun entry => entry.1 != cstr name⟩

@[simp] theorem get_empty (name : Name) : ({} : Hs).get name = none := rfl

theorem get_put (table : Hs) (stored name : Name) (info : VarInfo) :
    (table.put stored info).get name =
      if cstr name = cstr stored then some info else table.get name := by
  by_cases same : cstr name = cstr stored
  · simp [get, put, same]
  · have different : cstr stored ≠ cstr name := fun equal => same equal.symm
    have kept : (table.entries.filter fun entry => entry.1 != cstr stored).find?
        (fun entry => entry.1 == cstr name) =
          table.entries.find? fun entry => entry.1 == cstr name := by
      rw [List.find?_filter]
      congr 1
      funext entry
      by_cases found : entry.1 = cstr name <;> simp [found, same]
    simp [get, put, same, different, kept]

@[simp] theorem get_put_self (table : Hs) (name : Name) (info : VarInfo) :
    (table.put name info).get name = some info := by
  simp [get_put]

end Hs

/-- All hash sets, by their identity: `init_hash_set` takes the next number, and
a freed set is no longer there. -/
structure HsHeap where
  sets : Nat → Option Hs := fun _ => none
  next : Nat := 0

namespace HsHeap

def initHashSet (heap : HsHeap) : Nat × HsHeap :=
  (heap.next, ⟨Function.update heap.sets heap.next (some {}), heap.next + 1⟩)

def write (heap : HsHeap) (id : Nat) (table : Hs) : HsHeap :=
  { heap with sets := Function.update heap.sets id (some table) }

def free (heap : HsHeap) (id : Nat) : HsHeap :=
  { heap with sets := Function.update heap.sets id none }

variable (heap : HsHeap) (id : Nat) (table : Hs)

@[simp] theorem write_self : (heap.write id table).sets id = some table :=
  Function.update_self ..

variable {id} in
theorem write_of_ne {other : Nat} (different : other ≠ id) :
    (heap.write id table).sets other = heap.sets other := Function.update_of_ne different ..

variable {id} in
theorem free_of_ne {other : Nat} (different : other ≠ id) :
    (heap.free id).sets other = heap.sets other := Function.update_of_ne different ..

end HsHeap

/-- `AstScope` without its body. A scope pointer is the list of the symbol
tables met on the way along the `parent` links, so the null pointer is `[]`. -/
structure AstScope where
  symtab : Nat
  parent : List Nat
  deriving DecidableEq, Repr

def AstScope.chain (scope : AstScope) : List Nat := scope.symtab :: scope.parent

inductive AstKind where
  | atom | unary | binary | expr | scope | function | functionCall | extrn | auto
  | if_ | elseIf | else_ | while_ | return_ | lable | goto | global
  deriving DecidableEq, Repr

/-- `AstNode`, one constructor for each `AstKind`; a list linked by `next` is
a `List AstNode`. -/
inductive AstNode where
  | atom (kind : TokenKind) (value : CStr) (intLit : Nat)
  | unary (op : TokenKind) (node : AstNode)
  | binary (left : AstNode) (op : TokenKind) (right : AstNode)
  | expr (node : AstNode)
  | scope (scopeN : AstScope) (body : List AstNode)
  | function (name : CStr) (paramsTab lableTab : Nat) (params : Nat) (body : AstNode)
  | functionCall (name : CStr) (args : List AstNode)
  | extrn (name : CStr)
  | auto (name : CStr) (size : Nat)
  | if_ (condition : AstNode) (body : AstNode) (chain : Option AstNode)
  | elseIf (condition : AstNode) (body : AstNode) (chain : Option AstNode)
  | else_ (scopeN : AstScope) (body : List AstNode)
  | while_ (condition : AstNode) (body : AstNode)
  | return_ (node : Option AstNode)
  | lable (name : CStr)
  | goto (name : CStr)
  | global (name : CStr) (size : Nat)
  deriving Repr

def AstNode.kind : AstNode → AstKind
  | .atom .. => .atom
  | .unary .. => .unary
  | .binary .. => .binary
  | .expr .. => .expr
  | .scope .. => .scope
  | .function .. => .function
  | .functionCall .. => .functionCall
  | .extrn .. => .extrn
  | .auto .. => .auto
  | .if_ .. => .if_
  | .elseIf .. => .elseIf
  | .else_ .. => .else_
  | .while_ .. => .while_
  | .return_ .. => .return_
  | .lable .. => .lable
  | .goto .. => .goto
  | .global .. => .global

/-- Reading `scope_n`, which only the kinds that store it allow. -/
def AstNode.scopeN? : AstNode → Option (AstScope × List AstNode)
  | .scope scopeN body => some (scopeN, body)
  | .else_ scopeN body => some (scopeN, body)
  | _ => none

end Trident
