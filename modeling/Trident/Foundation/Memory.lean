import Mathlib.Algebra.Ring.Int.Defs
import Mathlib.Algebra.Ring.Nat
import Mathlib.Data.Nat.Notation
import Mathlib.Tactic.Common

/-! A byte memory with 64-bit addresses, read and written in words of eight
bytes, the least significant byte first. Addresses wrap around. -/

set_option autoImplicit false

namespace Foundation

abbrev Word := BitVec 64

abbrev Mem := Word → BitVec 8

namespace Mem

/-- The distance from `base` up to `addr`, around the end of the address space. -/
def offset (base addr : Word) : Nat := (addr - base).toNat

/-- The word that eight bytes make up. -/
def ofBytes (bytes : Fin 8 → BitVec 8) : Word :=
  bytes 7 ++ bytes 6 ++ bytes 5 ++ bytes 4 ++ bytes 3 ++ bytes 2 ++ bytes 1 ++ bytes 0

def load (mem : Mem) (addr : Word) : Word :=
  ofBytes fun index => mem (addr + BitVec.ofNat 64 index.val)

def store (mem : Mem) (addr value : Word) : Mem := fun byte =>
  if offset addr byte < 8 then value.extractLsb' (8 * offset addr byte) 8 else mem byte

/-- The bytes of the word at `addr`. -/
def InWord (addr byte : Word) : Prop := offset addr byte < 8

instance (addr byte : Word) : Decidable (InWord addr byte) :=
  inferInstanceAs (Decidable (offset addr byte < 8))

/-- The words at the two addresses have no byte in common. -/
def Apart (left right : Word) : Prop := 8 ≤ offset left right ∧ 8 ≤ offset right left

instance (left right : Word) : Decidable (Apart left right) :=
  inferInstanceAs (Decidable (_ ∧ _))

theorem Apart.symm {left right : Word} (apart : Apart left right) : Apart right left :=
  ⟨apart.2, apart.1⟩

theorem offset_add (addr : Word) (index : Fin 8) :
    offset addr (addr + BitVec.ofNat 64 index.val) = index.val := by
  have small := index.isLt
  simp only [offset, BitVec.add_comm addr, BitVec.add_sub_cancel, BitVec.toNat_ofNat]
  omega

theorem inWord_iff {addr byte : Word} :
    InWord addr byte ↔ ∃ index : Fin 8, byte = addr + BitVec.ofNat 64 index.val := by
  constructor
  · intro inside
    refine ⟨⟨offset addr byte, inside⟩, ?_⟩
    simp only [offset, BitVec.ofNat_toNat, BitVec.setWidth_eq, BitVec.add_comm addr,
      BitVec.sub_add_cancel]
  · rintro ⟨index, rfl⟩
    rw [InWord, offset_add]
    exact index.isLt

theorem Apart.not_inWord {left right byte : Word} (apart : Apart left right)
    (inside : InWord left byte) : ¬ InWord right byte := by
  obtain ⟨up, down⟩ := apart
  simp only [InWord, offset, BitVec.toNat_sub] at *
  omega

theorem load_congr {left right : Mem} {addr : Word}
    (agree : ∀ byte, InWord addr byte → left byte = right byte) :
    left.load addr = right.load addr := by
  have same : (fun index : Fin 8 => left (addr + BitVec.ofNat 64 index.val)) =
      fun index => right (addr + BitVec.ofNat 64 index.val) :=
    funext fun index => agree _ (inWord_iff.mpr ⟨index, rfl⟩)
  rw [load, load, same]

theorem store_inside {mem : Mem} {addr value byte : Word} (inside : InWord addr byte) :
    mem.store addr value byte = value.extractLsb' (8 * offset addr byte) 8 := if_pos inside

theorem store_outside {mem : Mem} {addr value byte : Word} (outside : ¬ InWord addr byte) :
    mem.store addr value byte = mem byte := if_neg outside

theorem ofBytes_extract (value : Word) :
    (ofBytes fun index => value.extractLsb' (8 * index.val) 8) = value := by
  rw [ofBytes, BitVec.extractLsb'_append_extractLsb'_eq_extractLsb' (by decide),
    BitVec.extractLsb'_append_extractLsb'_eq_extractLsb' (by decide),
    BitVec.extractLsb'_append_extractLsb'_eq_extractLsb' (by decide),
    BitVec.extractLsb'_append_extractLsb'_eq_extractLsb' (by decide),
    BitVec.extractLsb'_append_extractLsb'_eq_extractLsb' (by decide),
    BitVec.extractLsb'_append_extractLsb'_eq_extractLsb' (by decide),
    BitVec.extractLsb'_append_extractLsb'_eq_extractLsb' (by decide)]
  exact BitVec.extractLsb'_eq_self

theorem extract_ofBytes (bytes : Fin 8 → BitVec 8) (index : Fin 8) :
    (ofBytes bytes).extractLsb' (8 * index.val) 8 = bytes index := by
  have place : index = 0 ∨ index = 1 ∨ index = 2 ∨ index = 3 ∨ index = 4 ∨ index = 5 ∨
      index = 6 ∨ index = 7 := by omega
  rw [ofBytes]
  rcases place with rfl | rfl | rfl | rfl | rfl | rfl | rfl | rfl
  all_goals
    simp (disch := decide) only [BitVec.extractLsb'_append_eq_of_add_le,
      BitVec.extractLsb'_append_eq_of_le]
    exact BitVec.extractLsb'_eq_self

theorem ofBytes_low (byte : BitVec 8) :
    (ofBytes fun index => if index = 0 then byte else 0) = byte.setWidth 64 := by
  have wide : byte.setWidth 64 = 0#56 ++ byte := BitVec.setWidth_eq_append (by decide)
  rw [wide]
  simp [ofBytes]

/-- A word is its first byte if the seven others are zero. -/
theorem load_eq_low_iff (mem : Mem) (addr : Word) : mem.load addr = (mem addr).setWidth 64 ↔
    ∀ index : Fin 8, index ≠ 0 → mem (addr + BitVec.ofNat 64 index.val) = 0 := by
  have first : mem (addr + BitVec.ofNat 64 (0 : Fin 8).val) = mem addr := congrArg mem (BitVec.add_zero addr)
  rw [load, ← ofBytes_low]
  constructor
  · intro same index other
    have byte := congrArg (BitVec.extractLsb' (8 * index.val) 8) same
    rwa [extract_ofBytes, extract_ofBytes, if_neg other] at byte
  · intro zero
    refine congrArg ofBytes (funext fun index => ?_)
    by_cases low : index = 0
    · rw [low, if_pos rfl, first]
    · rw [if_neg low, zero index low]

@[simp] theorem load_store (mem : Mem) (addr value : Word) :
    (mem.store addr value).load addr = value := by
  have stored : (fun index : Fin 8 =>
      mem.store addr value (addr + BitVec.ofNat 64 index.val)) =
        fun index => value.extractLsb' (8 * index.val) 8 := by
    funext index
    rw [store_inside (inWord_iff.mpr ⟨index, rfl⟩), offset_add]
  rw [load, stored, ofBytes_extract]

/-- A word that is stored where it was loaded from changes nothing. -/
theorem store_load (mem : Mem) (addr : Word) : mem.store addr (mem.load addr) = mem := by
  funext byte
  by_cases inside : InWord addr byte
  · obtain ⟨index, rfl⟩ := inWord_iff.mp inside
    rw [store_inside inside, offset_add, load, extract_ofBytes]
  · exact store_outside inside

theorem load_store_apart {mem : Mem} {addr other value : Word} (apart : Apart addr other) :
    (mem.store addr value).load other = mem.load other :=
  load_congr fun _ inside => store_outside (apart.symm.not_inWord inside)

end Mem

end Foundation
