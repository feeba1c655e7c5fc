import Trident.Foundation.Memory

/-! Memories that agree on given words, and the words of a stack that grows
down: word `k` is `8 * k` bytes below the top. -/

set_option autoImplicit false

namespace Foundation

namespace Mem

/-- The two memories have the same bytes in the words given. -/
def AgreeOn (words : Word → Prop) (left right : Mem) : Prop :=
  ∀ addr, words addr → ∀ byte, InWord addr byte → left byte = right byte

namespace AgreeOn

variable {words words' : Word → Prop} {left middle right : Mem} {addr value : Word}

theorem refl (words : Word → Prop) (mem : Mem) : AgreeOn words mem mem := fun _ _ _ _ => rfl

theorem symm (agree : AgreeOn words left right) : AgreeOn words right left :=
  fun addr member byte inside => (agree addr member byte inside).symm

theorem trans (first : AgreeOn words left middle) (second : AgreeOn words middle right) :
    AgreeOn words left right :=
  fun addr member byte inside =>
    (first addr member byte inside).trans (second addr member byte inside)

theorem mono (agree : AgreeOn words left right) (fewer : ∀ addr, words' addr → words addr) :
    AgreeOn words' left right := fun addr member => agree addr (fewer addr member)

theorem load (agree : AgreeOn words left right) (member : words addr) :
    left.load addr = right.load addr := load_congr (agree addr member)

/-- The same word is stored in both memories. -/
theorem store (agree : AgreeOn words left right) (addr value : Word) :
    AgreeOn words (left.store addr value) (right.store addr value) := by
  intro other member byte inside
  by_cases stored : InWord addr byte
  · rw [store_inside stored, store_inside stored]
  · rw [store_outside stored, store_outside stored]
    exact agree other member byte inside

/-- A word is stored in one of them, apart from those they agree on. -/
theorem store_apart (agree : AgreeOn words left right)
    (apart : ∀ other, words other → Apart addr other) :
    AgreeOn words left (right.store addr value) := by
  intro other member byte inside
  rw [store_outside ((apart other member).symm.not_inWord inside)]
  exact agree other member byte inside

/-- A word is copied, and they agree on it too. -/
theorem copy (agree : AgreeOn words left right)
    (apart : ∀ other, words other → Apart addr other) :
    AgreeOn (fun other => words other ∨ other = addr) (left.store addr (right.load addr)) right := by
  rintro other (member | rfl) byte inside
  · exact ((agree.symm.store_apart apart).symm) other member byte inside
  · have same : right.store other (right.load other) byte = right byte := by rw [store_load]
    rw [store_inside inside, ← same, store_inside inside]

end AgreeOn

/-- Only bytes of the words given differ after. -/
def ChangesOnly (changed : Word → Prop) (before after : Mem) : Prop :=
  ∀ byte, (∀ addr, changed addr → ¬ InWord addr byte) → after byte = before byte

namespace ChangesOnly

variable {changed changed' : Word → Prop} {before middle after : Mem} {addr value : Word}

theorem refl (changed : Word → Prop) (mem : Mem) : ChangesOnly changed mem mem := fun _ _ => rfl

theorem trans (first : ChangesOnly changed before middle)
    (second : ChangesOnly changed middle after) : ChangesOnly changed before after :=
  fun byte outside => (second byte outside).trans (first byte outside)

theorem mono (only : ChangesOnly changed before after)
    (more : ∀ addr, changed addr → changed' addr) : ChangesOnly changed' before after :=
  fun byte outside => only byte fun addr member => outside addr (more addr member)

theorem store (member : changed addr) : ChangesOnly changed before (before.store addr value) :=
  fun _ outside => store_outside (outside addr member)

theorem agreeOn {words : Word → Prop} (only : ChangesOnly changed before after)
    (apart : ∀ addr, changed addr → ∀ other, words other → Apart addr other) :
    AgreeOn words before after :=
  fun other member byte inside => (only byte fun addr changes =>
    (apart addr changes other member).symm.not_inWord inside).symm

theorem load (only : ChangesOnly changed before after)
    (apart : ∀ other, changed other → Apart other addr) : after.load addr = before.load addr :=
  load_congr fun byte inside => only byte fun other changes =>
    (apart other changes).symm.not_inWord inside

end ChangesOnly

end Mem

/-- Word `k` of the stack that grows down from `top`. -/
def stackWord (top : Word) (k : Nat) : Word := top - BitVec.ofNat 64 (8 * k)

section

variable (top : Word) (k j : Nat)

@[simp] theorem stackWord_zero : stackWord top 0 = top := by
  simp [stackWord]

theorem stackWord_sub : stackWord top k - BitVec.ofNat 64 (8 * j) = stackWord top (k + j) := by
  simp only [stackWord]
  bv_omega

theorem stackWord_add (le : j ≤ k) :
    stackWord top k + BitVec.ofNat 64 (8 * j) = stackWord top (k - j) := by
  simp only [stackWord]
  bv_omega

variable {top k j}

theorem stackWord_apart (different : j ≠ k) (first : j < 2 ^ 61) (second : k < 2 ^ 61) :
    Mem.Apart (stackWord top j) (stackWord top k) := by
  simp only [Mem.Apart, Mem.offset, stackWord]
  constructor <;> bv_omega

theorem stackWord_apart_top (below : 0 < k) (near : k < 2 ^ 61) :
    Mem.Apart (stackWord top k) top := by
  have apart : Mem.Apart (stackWord top k) (stackWord top 0) :=
    stackWord_apart (by omega) near (by omega)
  rwa [stackWord_zero] at apart

/-- The words above the top are apart from those of the stack. -/
theorem stackWord_apart_above (above : 0 < j) (near : j + k < 2 ^ 61) :
    Mem.Apart (stackWord top k) (top + BitVec.ofNat 64 (8 * j)) := by
  simp only [Mem.Apart, Mem.offset, stackWord]
  constructor <;> bv_omega

end

/-- The words of the stack from `lo` up to `hi`. -/
def StackRange (top : Word) (lo hi : Nat) (addr : Word) : Prop :=
  ∃ k, lo ≤ k ∧ k < hi ∧ addr = stackWord top k

theorem StackRange.mono {top addr : Word} {lo hi lo' hi' : Nat} (inside : StackRange top lo hi addr)
    (low : lo' ≤ lo) (high : hi ≤ hi') : StackRange top lo' hi' addr := by
  obtain ⟨k, lower, upper, rfl⟩ := inside
  exact ⟨k, by omega, by omega, rfl⟩

theorem StackRange.apart {top addr : Word} {lo hi k : Nat} (inside : StackRange top lo hi addr)
    (outside : k < lo ∨ hi ≤ k) (small : hi ≤ 2 ^ 61) (near : k < 2 ^ 61) :
    Mem.Apart addr (stackWord top k) := by
  obtain ⟨j, lower, upper, rfl⟩ := inside
  exact stackWord_apart (by omega) (by omega) near

end Foundation
