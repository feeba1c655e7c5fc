import Trident.Amd64.Refinement
import Trident.Driver

/-! The function `char` of the library `libb.b`, from its source to the value that
its code returns. -/

set_option autoImplicit false

namespace Trident

open Foundation

/-- The code that the compiler makes of a function of a source text. -/
def functionCode (file : String) (source : List UInt8) (name : Name) : Option (List Instr) :=
  match lexer (initLexer source) with
  | .error _ _ => none
  | .ok _ l =>
      match parser (initParser l.tokens) with
      | .error _ _ => none
      | .ok _ p =>
          match genIr file p.ast (initIr p) with
          | .error _ _ => none
          | .ok _ ir => ir.irTail.findSome? fun
              | .function found params nodes =>
                  if found = some name then (asmFunction params nodes).toOption else none
              | _ => none

/-- `libb.b`. -/
def libb : List UInt8 :=
  ("extrn syscall;\n\nchar(string, i) \x7b\n    return *(string + i);\n\x7d\n\n" ++
    "putchar(char) \x7b\n    syscall(1, 1, &char, 1);\n\x7d\n").toList.map byte

def charNodes : List IrNode :=
  [.label 1, .operation 3 .alloc 0 0, .operation 0 .store 3 1, .operation 1 .address 3 0,
    .operation 4 .alloc 0 0, .operation 0 .store 4 2, .operation 2 .address 4 0,
    .operation 5 .load 1 0, .operation 6 .load 2 0, .operation 7 .add 5 6,
    .operation 8 .load 7 0, .ret 8]

/-- The code of the nodes of a parameter, which move it to the cell `k`. -/
def moveParam (maxT k t d : Nat) : List Instr :=
  [.lea .rax (.mem .rbp (-((maxT + (1 + k)) * 8 : Nat)))] ++ [st d .rax] ++
  [ld .rax t, ld .rcx d, .mov (.mem .rcx 0) (.reg .rax)] ++ ([ld .rax d] ++ [st t .rax])

def loadTo (d t : Nat) : List Instr := [ld .rax t, .mov (.reg .rax) (.mem .rax 0)] ++ [st d .rax]

def charBody : List Instr :=
  moveParam 8 0 1 3 ++ moveParam 8 1 2 4 ++ loadTo 5 1 ++ loadTo 6 2 ++
  ([ld .rax 5, ld .rcx 6, .alu .add .rax (.reg .rcx)] ++ [st 7 .rax]) ++ loadTo 8 7

def charCode : List Instr := asmPrologue 2 8 2 ++ .label 1 :: (charBody ++ [ld .rax 8, .leave, .ret])

private theorem functionCode_char : functionCode "libb.b" libb (['c', 'h', 'a', 'r'].map byte) = some charCode := by
  decide +kernel

section

variable {σ : Type} {m : AsmWorld σ} {entry : AsmState σ}

/-- The word that a call of `char` reads. -/
def AsmState.charAddr (entry : AsmState σ) : Word := entry.regs .rdi + entry.regs .rsi

/-- The words of the stack that a call of `char` uses are not those of the string. -/
def AsmState.CharApart (entry : AsmState σ) : Prop :=
  ∀ k < 12, Mem.Apart (stackWord (entry.regs .rsp) k) entry.charAddr

def charActivation (entry : AsmState σ) (apart : entry.CharApart) : Activation σ where
  entry := entry
  params := 2
  nodes := charNodes
  outer addr := addr = entry.charAddr
  depth := 12
  room := by decide
  calls := by
    intro d name args member
    simp [charNodes] at member
  near := by decide
  apart := by
    rintro addr rfl
    exact apart

section Body

variable {a : Activation σ} {s : AsmState σ} {ir : IrState σ} {d t k : Nat} {value : Word}

private theorem cell_apart {addr : Word} (small : k < a.nAlloc) (outer : a.outer addr) :
    Mem.Apart (a.cell k) addr := by
  obtain ⟨least, room, near⟩ := a.sizes
  have place : a.cell k = stackWord (a.entry.regs .rsp) (a.maxT + (1 + k) + 1) := a.slot_eq _
  rw [place]
  exact a.apart addr outer _ (by omega)

private theorem moveParam_runs (corresponds : a.Corresponds ir s) (found : ir.temps t = some value)
    (small : k < a.nAlloc) (old : t ≠ 0 ∧ t ≤ a.maxT) (new : d ≠ 0 ∧ d ≤ a.maxT) (other : t ≠ d) :
    ∃ s', execInstrs m (moveParam a.maxT k t d) s = .ok s' ∧
      a.Corresponds ⟨Function.update (Function.update ir.temps d (some (a.cell k))) t (some (a.cell k)),
        { ir.store with mem := ir.store.mem.store (a.cell k) value }⟩ s' := by
  have cell : a.Shared (a.cell k) := .inr ⟨k, small, rfl⟩
  obtain ⟨s1, ran1, state1⟩ :=
    corresponds.result (corresponds.evaluates_alloc m k) ir.store rfl rfl new
  let stored : Store σ := { ir.store with mem := ir.store.mem.store (a.cell k) value }
  have kept : Function.update ir.temps d (some (a.cell k)) t = some value :=
    (Function.update_of_ne other _ _).trans found
  have mem : stored.mem = ir.store.mem.store (a.cell k) value := rfl
  obtain ⟨s2, ran2, state2⟩ := state1.store_runs m (Function.update_self d _ _) kept cell mem rfl
  obtain ⟨s3, ran3, state3⟩ := state2.result (state2.evaluates_temp m (Function.update_self d _ _))
    _ rfl rfl old
  exact ⟨s3, (execInstrs_append ((execInstrs_append ran1).trans ran2)).trans ran3, state3⟩

private theorem loadTo_runs {addr : Word} (corresponds : a.Corresponds ir s)
    (found : ir.temps t = some addr) (shared : a.Shared addr) (new : d ≠ 0 ∧ d ≤ a.maxT) :
    ∃ s', execInstrs m (loadTo d t) s = .ok s' ∧
      a.Corresponds { ir with temps := Function.update ir.temps d (some (ir.store.mem.load addr)) } s' :=
  corresponds.result (corresponds.evaluates_load m found shared) ir.store rfl rfl new

/-- The code between the label of `char` and its return. -/
private theorem charBody_runs {string index : Word} (maxT : a.maxT = 8) (nAlloc : a.nAlloc = 2)
    (corresponds : a.Corresponds ir s) (first : ir.temps 1 = some string)
    (second : ir.temps 2 = some index) (word : a.outer (string + index)) :
    ∃ s' ir', execInstrs m charBody s = .ok s' ∧ a.Corresponds ir' s' ∧
      ir'.temps 8 = some (ir.store.mem.load (string + index)) := by
  have cells : ∀ k < 2, a.Shared (a.cell k) := fun k small => .inr ⟨k, nAlloc ▸ small, rfl⟩
  have place : ∀ d, d ≠ 0 → d ≤ 8 → d ≠ 0 ∧ d ≤ a.maxT :=
    fun d positive small => ⟨positive, maxT ▸ small⟩
  obtain ⟨s1, ran1, state1⟩ := moveParam_runs (m := m) (k := 0) (d := 3) corresponds first
    (by omega) (place 1 (by decide) (by decide)) (place 3 (by decide) (by decide)) (by decide)
  obtain ⟨s2, ran2, state2⟩ := moveParam_runs (m := m) (k := 1) (d := 4) state1 (t := 2) second
    (by omega) (place 2 (by decide) (by decide)) (place 4 (by decide) (by decide)) (by decide)
  rw [maxT] at ran1 ran2
  obtain ⟨s3, ran3, state3⟩ := loadTo_runs (m := m) (d := 5) (t := 1) state2 rfl
    (cells 0 (by decide)) (place 5 (by decide) (by decide))
  obtain ⟨s4, ran4, state4⟩ := loadTo_runs (m := m) (d := 6) (t := 2) state3 rfl
    (cells 1 (by decide)) (place 6 (by decide) (by decide))
  dsimp only at state3 state4
  have apart : Mem.Apart (a.cell 1) (a.cell 0) :=
    (Activation.cell_layout (a := a) (k := 0) (by omega)).2.2 1 (by omega) (by decide)
  rw [Mem.load_store_apart apart, Mem.load_store, Mem.load_store] at state4
  have added : Activation.Evaluates m s4 ([ld .rax 5, ld .rcx 6] ++ [.alu .add .rax (.reg .rcx)]) .rax
      (string + index) :=
    ⟨_, execInstrs_append (state4.loads_two m rfl rfl), ⟨rfl, rfl, rfl, rfl⟩, rfl⟩
  obtain ⟨s5, ran5, state5⟩ := state4.result added _ rfl rfl (place 7 (by decide) (by decide))
  obtain ⟨s6, ran6, state6⟩ := loadTo_runs (m := m) (d := 8) (t := 7) state5 rfl (.inl word)
    (place 8 (by decide) (by decide))
  dsimp only at state6
  rw [Mem.load_store_apart (cell_apart (by omega) word),
    Mem.load_store_apart (cell_apart (by omega) word)] at state6
  refine ⟨s6, _, ?_, state6, rfl⟩
  have ran12 := (execInstrs_append ran1).trans ran2
  have ran34 := (execInstrs_append ((execInstrs_append ran12).trans ran3)).trans ran4
  exact (execInstrs_append ((execInstrs_append ran34).trans ran5)).trans ran6

end Body

/-- `char` returns the word at the address of the character. -/
private theorem char_loads (m : AsmWorld σ) (apart : entry.CharApart) :
    ∃ target s, Ends (asmStep m charCode) charCode entry (.ok target s) ∧
      s.regs .rax = entry.mem.load entry.charAddr := by
  obtain ⟨a, same, params, maxT, nAlloc, outer⟩ : ∃ a : Activation σ, a.entry = entry ∧ a.params = 2 ∧
      a.maxT = 8 ∧ a.nAlloc = 2 ∧ a.outer entry.charAddr := by
    have maxT : maxTemp 2 charNodes = 8 := by decide +kernel
    have nAlloc : countAllocs charNodes = 2 := by decide +kernel
    exact ⟨charActivation entry apart, rfl, rfl, maxT, nAlloc, rfl⟩
  subst same
  have small : 2 * a.params + 2 < 2 ^ 61 := by
    rw [params]
    decide
  obtain ⟨framed, ran, frame⟩ := asmPrologue_runs (m := m) a.entry a.maxT a.nAlloc small
  have start : a.Corresponds (a.start a.entry.mem) framed :=
    Activation.corresponds_start (.refl _ _) frame
  rw [params, maxT, nAlloc] at ran
  have args : a.args = [a.entry.regs .rdi, a.entry.regs .rsi] := by
    rw [Activation.args, params]
    rfl
  have first : (a.start a.entry.mem).temps 1 = some (a.entry.regs .rdi) := by
    rw [Activation.start, args]
    rfl
  have second : (a.start a.entry.mem).temps 2 = some (a.entry.regs .rsi) := by
    rw [Activation.start, args]
    rfl
  obtain ⟨s, ir, body, reached, result⟩ := charBody_runs (m := m) maxT nAlloc start first second outer
  let loaded := s.setReg .rax (a.entry.mem.load a.entry.charAddr)
  have read : asmStep m charCode [ld .rax 8, .leave, .ret] s = .ok (.more [.leave, .ret]) loaded :=
    asmStep_exec (reached.ld_exec result .rax)
  have last : a.Corresponds ir loaded := reached.kept ⟨rfl, rfl, rfl, rfl⟩
  obtain ⟨target, final, ends, returned⟩ := last.returns (m := m) charCode [] rfl
  refine ⟨target, final, ?_, returned.rax⟩
  refine .of_path (path_instrs ran) (.of_path (.one rfl) (.of_path (path_instrs body) ?_))
  exact .of_path (.one read) ends

end

/-- A string lies at an address, with the zero that ends it. -/
def Mem.Holds (mem : Mem) (addr : Word) (string : List UInt8) : Prop :=
  ∀ i c, (string ++ [0])[i]? = some c → mem (addr + BitVec.ofNat 64 i) = c.toBitVec

/-- The code of `char` returns the byte `i` of a string, if the seven bytes behind it
in the memory are zero. Otherwise it returns another value. -/
theorem char_returns_iff {σ : Type} (m : AsmWorld σ) (entry : AsmState σ) (string : List UInt8)
    (i : Nat) (c : UInt8) (held : Mem.Holds entry.mem (entry.regs .rdi) string)
    (index : entry.regs .rsi = BitVec.ofNat 64 i) (found : (string ++ [0])[i]? = some c)
    (apart : entry.CharApart) :
    ∃ code, functionCode "libb.b" libb (['c', 'h', 'a', 'r'].map byte) = some code ∧
      ∃ target s, Ends (asmStep m code) code entry (.ok target s) ∧
        (s.regs .rax = BitVec.ofNat 64 c.toNat ↔
          ∀ k : Fin 8, k ≠ 0 → entry.mem (entry.charAddr + BitVec.ofNat 64 k.val) = 0) := by
  obtain ⟨target, s, ends, loaded⟩ := char_loads m apart
  have byte : entry.mem entry.charAddr = c.toBitVec := by
    rw [AsmState.charAddr, index]
    exact held i c found
  have value : BitVec.ofNat 64 c.toNat = (entry.mem entry.charAddr).setWidth 64 := by
    rw [byte]
    exact BitVec.ofNat_toNat 64 c.toBitVec
  refine ⟨charCode, functionCode_char, target, s, ends, ?_⟩
  rw [loaded, value]
  exact Mem.load_eq_low_iff _ _

/-- A call of `char` on the string `hi`, which is at address 4096. -/
def hiState (i : Nat) : AsmState Unit where
  regs
    | .rdi => 4096
    | .rsi => BitVec.ofNat 64 i
    | .rsp => 65536
    | _ => 0
  flags := none
  mem addr := if addr = 4096 then 104 else if addr = 4097 then 105 else 0
  outside := ()

private theorem hiState_holds (i : Nat) : Mem.Holds (hiState i).mem ((hiState i).regs .rdi) [104, 105] := by
  intro j c found
  rcases j with _ | _ | _ | j
  all_goals cases found
  all_goals rfl

theorem char_returns_second :
    ∃ code, functionCode "libb.b" libb (['c', 'h', 'a', 'r'].map byte) = some code ∧
      ∃ target s, Ends (asmStep stubWorld code) code (hiState 1) (.ok target s) ∧
        (s.regs .rax = BitVec.ofNat 64 (105 : UInt8).toNat ↔
          ∀ k : Fin 8, k ≠ 0 →
            (hiState 1).mem ((hiState 1).charAddr + BitVec.ofNat 64 k.val) = 0) :=
  char_returns_iff stubWorld (hiState 1) [104, 105] 1 105 (hiState_holds 1) rfl rfl (by
    unfold AsmState.CharApart
    decide)

/-- The first byte of `hi` is 104, but both bytes are returned. -/
theorem char_returns_word :
    ∃ target s, Ends (asmStep stubWorld charCode) charCode (hiState 0) (.ok target s) ∧
      s.regs .rax = 104 + 256 * 105 := by
  have apart : (hiState 0).CharApart := by
    unfold AsmState.CharApart
    decide
  obtain ⟨target, s, ends, loaded⟩ := char_loads stubWorld apart
  exact ⟨target, s, ends, loaded.trans (by decide)⟩

end Trident
