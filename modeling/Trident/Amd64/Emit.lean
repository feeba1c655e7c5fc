import Trident.Ir.Node

/-! The amd64 backend, from `amd64.c`. What it prints is kept as a list of
instructions and directives; `ld` and `st` address the slots of temporaries
below `rbp`. -/

set_option autoImplicit false

namespace Trident

inductive Reg where
  | rax | rcx | rdx | rsi | rdi | r8 | r9 | rsp | rbp
  deriving DecidableEq, Repr

/-- Symbols of the module that an instruction names after `rel`. -/
inductive Symbol where
  | roData (id : Nat)
  | var (name : CStr)
  deriving DecidableEq, Repr

inductive Operand where
  | reg (reg : Reg)
  | imm (value : Nat)
  | mem (base : Reg) (disp : Int)
  | rel (symbol : Symbol)
  deriving DecidableEq, Repr

inductive AluOp where
  | add | sub | and | or | imul
  deriving DecidableEq, Repr

inductive ShiftOp where
  | shl | sar
  deriving DecidableEq, Repr

/-- The conditions of the `setcc` instructions. -/
inductive Cond where
  | e | ne | g | ge | l | le
  deriving DecidableEq, Repr

inductive Instr where
  | label (id : Nat)
  | mov (dst src : Operand)
  | lea (dst : Reg) (src : Operand)
  | push (src : Reg)
  | alu (op : AluOp) (dst : Reg) (src : Operand)
  | neg (dst : Reg)
  | cqo
  | idiv (src : Reg)
  | shiftCl (op : ShiftOp) (dst : Reg)
  | cmp (left right : Reg)
  | setAl (cond : Cond)
  | movzxRaxAl
  | test (left right : Reg)
  | jnz (id : Nat)
  | jmp (id : Nat)
  | xorEax
  | call (name : CStr)
  | leave
  | ret
  deriving DecidableEq, Repr

/-- `ARG_REGS`. -/
def argRegs : List Reg := [.rdi, .rsi, .rdx, .rcx, .r8, .r9]

/-- `N_ARG_REGS`. -/
def nArgRegs : Nat := 6

/-- The memory operand of the slot of a temporary. -/
def slotOperand (t : Nat) : Operand := .mem .rbp (-(t * 8 : Nat))

def ld (reg : Reg) (t : Nat) : Instr := .mov (.reg reg) (slotOperand t)

def st (t : Nat) (reg : Reg) : Instr := .mov (slotOperand t) (.reg reg)

def setccFor : IrOp → Option Cond
  | .eq => some .e
  | .ne => some .ne
  | .gt => some .g
  | .ge => some .ge
  | .lt => some .l
  | .le => some .le
  | _ => none

/-- The cases of `asm_op` that load both operands, work on `rax` and `rcx`,
and store a register. -/
def asmBinary (d a b : Nat) (body : List Instr) (result : Reg) : List Instr :=
  [ld .rax a, ld .rcx b] ++ body ++ [st d result]

/-- `asm_op`: the instructions and the next value of `alloc_i`. -/
def asmOp (d : Nat) (op : IrOp) (a b imm : Nat) (name : CStr) (allocI maxT : Nat) :
    Except Diag (List Instr × Nat) :=
  match op with
  | .const => .ok ([.mov (.reg .rax) (.imm imm), st d .rax], allocI)
  | .data => .ok ([.lea .rax (.rel (.roData imm)), st d .rax], allocI)
  | .alloc =>
      .ok ([.lea .rax (.mem .rbp (-((maxT + allocI) * 8 : Nat))), st d .rax], allocI + 1)
  | .address => .ok ([ld .rax a, st d .rax], allocI)
  | .load => .ok ([ld .rax a, .mov (.reg .rax) (.mem .rax 0), st d .rax], allocI)
  | .store => .ok ([ld .rax b, ld .rcx a, .mov (.mem .rcx 0) (.reg .rax)], allocI)
  | .globalL => .ok ([.mov (.reg .rax) (.rel (.var name)), st d .rax], allocI)
  | .globalS => .ok ([ld .rax b, .mov (.rel (.var name)) (.reg .rax)], allocI)
  | .globalAddr => .ok ([.lea .rax (.rel (.var name)), st d .rax], allocI)
  | .neg => .ok ([ld .rax a, .neg .rax, st d .rax], allocI)
  | .add => .ok (asmBinary d a b [.alu .add .rax (.reg .rcx)] .rax, allocI)
  | .sub => .ok (asmBinary d a b [.alu .sub .rax (.reg .rcx)] .rax, allocI)
  | .and => .ok (asmBinary d a b [.alu .and .rax (.reg .rcx)] .rax, allocI)
  | .or => .ok (asmBinary d a b [.alu .or .rax (.reg .rcx)] .rax, allocI)
  | .mul => .ok (asmBinary d a b [.alu .imul .rax (.reg .rcx)] .rax, allocI)
  | .div => .ok (asmBinary d a b [.cqo, .idiv .rcx] .rax, allocI)
  | .mod => .ok (asmBinary d a b [.cqo, .idiv .rcx] .rdx, allocI)
  | .shl => .ok (asmBinary d a b [.shiftCl .shl .rax] .rax, allocI)
  | .shr => .ok (asmBinary d a b [.shiftCl .sar .rax] .rax, allocI)
  | .eq | .ne | .gt | .ge | .lt | .le =>
      match setccFor op with
      | some cond =>
          .ok (asmBinary d a b [.cmp .rax .rcx, .setAl cond, .movzxRaxAl] .rax, allocI)
      | none => .error (.unhandledOp op.ctorIdx)
  | .unset => .error (.unhandledOp op.ctorIdx)

/-- The loop of `asm_call` that pushes the arguments behind the sixth, the last
one first. -/
def asmPushArgs (args : List Nat) : List Instr :=
  (args.drop nArgRegs).reverse.flatMap fun t => [ld .rax t, .push .rax]

/-- The loop of `asm_call` that loads the argument registers. -/
def asmLoadArgs (args : List Nat) : List Instr :=
  (argRegs.zip args).map fun arg => ld arg.1 arg.2

def asmCall (tempDest : Nat) (name : CStr) (args : List Nat) : List Instr :=
  let argc := args.length
  let stackArgs := if argc > nArgRegs then argc - nArgRegs else 0
  let pad := if stackArgs % 2 ≠ 0 then 1 else 0
  (if pad ≠ 0 then [.alu .sub .rsp (.imm 8)] else []) ++
    asmPushArgs args ++ asmLoadArgs args ++ [.xorEax, .call name] ++
    (if stackArgs + pad ≠ 0 then [.alu .add .rsp (.imm ((stackArgs + pad) * 8))] else []) ++
    [st tempDest .rax]

/-- The first loop of `asm_function`: the largest destination, with `params` as
the least answer. -/
def maxTemp (params : Nat) (nodes : List IrNode) : Nat :=
  nodes.foldl (fun maxT node =>
    match node with
    | .operation tempDest .. => if tempDest > maxT then tempDest else maxT
    | .call tempDest .. => if tempDest > maxT then tempDest else maxT
    | _ => maxT) params

def countAllocs (nodes : List IrNode) : Nat := nodes.countP (·.isAlloc)

/-- The size of the frame, rounded up to a multiple of sixteen. -/
def frameSize (maxT nAlloc : Nat) : Nat := ((maxT + nAlloc) * 8 + 15) / 16 * 16

/-- One round of the loop of `asm_function` over the parameters. -/
def asmParam (i : Nat) : List Instr :=
  match argRegs[i]? with
  | some reg => [st (i + 1) reg]
  | none => [.mov (.reg .rax) (.mem .rbp (16 + (i - nArgRegs) * 8 : Nat)), st (i + 1) .rax]

/-- That loop, from index `i` on. -/
def asmParams : Nat → Nat → List Instr
  | 0, _ => []
  | params + 1, i => asmParam i ++ asmParams params (i + 1)

/-- The instructions of one node of a function. -/
def asmNode (node : IrNode) (allocI maxT : Nat) : Except Diag (List Instr × Nat) :=
  match node with
  | .label id => .ok ([.label id], allocI)
  | .operation d op a b imm name => asmOp d op a b imm name allocI maxT
  | .jump id => .ok ([.jmp id], allocI)
  | .branch id idF t => .ok ([ld .rax t, .test .rax .rax, .jnz id, .jmp idF], allocI)
  | .call d name args => .ok (asmCall d name args, allocI)
  | .ret t => .ok ([if t ≠ 0 then ld .rax t else .xorEax, .leave, .ret], allocI)

/-- The second loop of `asm_function` over the nodes. -/
def asmNodes (maxT : Nat) : List IrNode → Nat → Except Diag (List Instr)
  | [], _ => .ok []
  | node :: nodes, allocI => do
      let (lines, allocI) ← asmNode node allocI maxT
      let rest ← asmNodes maxT nodes allocI
      return lines ++ rest

/-- The instructions of `asm_function` before the code of the nodes. -/
def asmPrologue (params maxT nAlloc : Nat) : List Instr :=
  [.push .rbp, .mov (.reg .rbp) (.reg .rsp)] ++
    (if frameSize maxT nAlloc ≠ 0 then
      [.alu .sub .rsp (.imm (frameSize maxT nAlloc))] else []) ++
    asmParams params 0

/-- `asm_function`, without the lines `global` and the label of the function. -/
def asmFunction (params : Nat) (nodes : List IrNode) : Except Diag (List Instr) := do
  let maxT := maxTemp params nodes
  let code ← asmNodes maxT nodes 1
  return asmPrologue params maxT (countAllocs nodes) ++ code

end Trident
