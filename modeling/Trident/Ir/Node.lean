import Trident.Diagnostics

/-! The intermediate representation, as `ir.h` declares it. -/

set_option autoImplicit false

namespace Trident

/-- `irop_t`. The enumeration starts at one; `unset` is the value zero. -/
inductive IrOp where
  | unset
  | neg | add | sub | mul | div | mod | and | or | shl | shr
  | eq | ne | gt | ge | lt | le
  | alloc | address | load | store
  | const | data | globalL | globalS | globalAddr
  deriving DecidableEq, Repr

/-- The nodes of a function's list; the fields are those the kind uses. -/
inductive IrNode where
  | label (lableId : Nat)
  | operation (tempDest : Nat) (op : IrOp) (temp1 temp2 : Nat) (imm : Nat := 0)
      (name : CStr := none)
  | jump (lableId : Nat)
  | branch (lableId lableIdF tempDest : Nat)
  | call (tempDest : Nat) (name : CStr) (args : List Nat)
  | ret (tempDest : Nat)
  deriving DecidableEq, Repr

/-- The nodes of a module's list. The size of a global is kept in its
`temp_dest`. -/
inductive IrTop where
  | module (name : String)
  | global (name : CStr) (tempDest : Nat)
  | extrn (name : CStr)
  | function (name : CStr) (params : Nat) (nodes : List IrNode)
  deriving DecidableEq, Repr

def IrNode.isAlloc : IrNode → Bool
  | .operation _ .alloc _ _ _ _ => true
  | _ => false

def IrNode.isRet : IrNode → Bool
  | .ret _ => true
  | _ => false

end Trident
