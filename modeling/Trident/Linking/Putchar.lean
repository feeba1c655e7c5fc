import Trident.Linking.Startup

/-! The function `putchar` of the library `libb.b`, with the routine `syscall` of
`libb.asm` that it calls. -/

set_option autoImplicit false

namespace Trident

open Foundation

variable {σ : Type}

/-- What the kernel does for a system call, from its number and its six arguments. -/
abbrev Kernel (σ : Type) := Word → List Word → Mem → σ → Option (Word × Mem × σ)

/-- The standard output takes all bytes: `emit` is what a byte does outside. -/
def Kernel.Writes (kernel : Kernel σ) (emit : BitVec 8 → σ → σ) : Prop :=
  ∀ addr a b c mem outside, kernel 1 [1, addr, 1, a, b, c] mem outside =
    some (1, mem, emit (mem addr) outside)

section

variable {p : Program σ} {f : LinkedFunction} {emit : BitVec 8 → σ → σ} {fresh : Nat → Nat → Word}
  {limit room : Nat} {sp : Word} {live : Word → Bool} {mem : Mem} {outside : σ × Nat}

end

section

variable {k : Linkage σ} {kernel : Kernel σ} {emit : BitVec 8 → σ → σ}

end

end Trident
