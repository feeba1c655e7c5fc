import Mathlib.Data.List.Basic

/-! Passes over a block of cells that read at one index and write at another,
in place. An access keeps both indices as they were. -/

set_option autoImplicit false

namespace Foundation

/-- A use of the cell at the read index `r` or at the write index `w`. -/
inductive Access where
  | read (r w : Nat)
  | write (r w : Nat)
  deriving DecidableEq, Repr

namespace Access

def r : Access → Nat
  | read r _ | write r _ => r

def w : Access → Nat
  | read _ w | write _ w => w

/-- The cell that is used. -/
def index : Access → Nat
  | read r _ => r
  | write _ w => w

/-- The first access writes a cell that the second one reads. -/
def Spoils : Access → Access → Prop
  | write _ w, read r _ => w = r
  | _, _ => False

end Access

/-- The write index does not overtake the read index, and no cell is written
before it is read. -/
structure Trailing (accesses : List Access) : Prop where
  behind : ∀ access ∈ accesses, access.w ≤ access.r
  unspoiled : accesses.Pairwise fun first later => ¬ first.Spoils later

/-- The accesses are also to the first `size` cells only. -/
structure InPlace (size : Nat) (accesses : List Access) : Prop extends Trailing accesses where
  within : ∀ access ∈ accesses, access.index < size

/-- The accesses of a pass from two indices to two others. The read index stays
below `limit` while cells are used, and moves on with each write. -/
inductive Pass (limit : Nat) : Nat → Nat → List Access → Nat → Nat → Prop where
  | stop {r w} : Pass limit r w [] r w
  | read {r w accesses r' w'} : r < limit → Pass limit r w accesses r' w' →
      Pass limit r w (.read r w :: accesses) r' w'
  | skip {r w accesses r' w'} : Pass limit (r + 1) w accesses r' w' →
      Pass limit r w accesses r' w'
  | write {r w accesses r' w'} : r < limit → Pass limit (r + 1) (w + 1) accesses r' w' →
      Pass limit r w (.write r w :: accesses) r' w'

namespace Pass

variable {limit r w r' w' : Nat} {accesses : List Access}

theorem r_le (pass : Pass limit r w accesses r' w') : ∀ access ∈ accesses, r ≤ access.r := by
  induction pass with
  | stop => exact List.forall_mem_nil _
  | read _ _ ih => exact List.forall_mem_cons.mpr ⟨Nat.le_refl _, ih⟩
  | skip _ ih => exact fun access member => Nat.le_of_succ_le (ih access member)
  | write _ _ ih =>
      exact List.forall_mem_cons.mpr
        ⟨Nat.le_refl _, fun access member => Nat.le_of_succ_le (ih access member)⟩

theorem r_lt (pass : Pass limit r w accesses r' w') : ∀ access ∈ accesses, access.r < limit := by
  induction pass with
  | stop => exact List.forall_mem_nil _
  | skip _ ih => exact ih
  | read below _ ih | write below _ ih => exact List.forall_mem_cons.mpr ⟨below, ih⟩

/-- A write index that starts behind the read index stays behind it. -/
theorem w_le (pass : Pass limit r w accesses r' w') (start : w ≤ r) :
    (∀ access ∈ accesses, access.w ≤ access.r) ∧ w' ≤ r' := by
  induction pass with
  | stop => exact ⟨List.forall_mem_nil _, start⟩
  | read _ _ ih =>
      obtain ⟨later, final⟩ := ih start
      exact ⟨List.forall_mem_cons.mpr ⟨start, later⟩, final⟩
  | skip _ ih => exact ih (Nat.le_succ_of_le start)
  | write _ _ ih =>
      obtain ⟨later, final⟩ := ih (Nat.succ_le_succ start)
      exact ⟨List.forall_mem_cons.mpr ⟨start, later⟩, final⟩

theorem trailing (pass : Pass limit r w accesses r' w') (start : w ≤ r) : Trailing accesses := by
  refine ⟨(pass.w_le start).1, ?_⟩
  induction pass with
  | stop => exact .nil
  | read _ _ ih => exact .cons (fun _ _ => id) (ih start)
  | skip _ ih => exact ih (Nat.le_succ_of_le start)
  | @write r w _ _ _ _ rest ih =>
      refine .cons (fun access member => ?_) (ih (Nat.succ_le_succ start))
      have later := rest.r_le access member
      cases access with
      | write => exact id
      | read r₁ =>
          rintro rfl
          exact Nat.not_succ_le_self _ (Nat.le_trans later start)

theorem inPlace (pass : Pass limit r w accesses r' w') (start : w ≤ r) :
    InPlace limit accesses where
  toTrailing := pass.trailing start
  within access member := by
    have below := pass.r_lt access member
    cases access with
    | read => exact below
    | write => exact Nat.lt_of_le_of_lt ((pass.w_le start).1 _ member) below

end Pass

variable {size r w : Nat} {accesses : List Access}

/-- A last write. -/
theorem Trailing.write (trailing : Trailing accesses) (behind : w ≤ r) :
    Trailing (accesses ++ [.write r w]) where
  behind := List.forall_mem_append.mpr ⟨trailing.behind, List.forall_mem_singleton.mpr behind⟩
  unspoiled := by
    refine List.pairwise_append.mpr ⟨trailing.unspoiled, List.pairwise_singleton .., ?_⟩
    intro first _ later member
    obtain rfl := List.mem_singleton.mp member
    cases first <;> exact id

theorem InPlace.write_iff (inPlace : InPlace size accesses) (behind : w ≤ r) :
    InPlace size (accesses ++ [.write r w]) ↔ w < size := by
  constructor
  · intro whole
    exact whole.within _ List.mem_concat_self
  · intro below
    refine ⟨inPlace.write behind, List.forall_mem_append.mpr ⟨inPlace.within, ?_⟩⟩
    exact List.forall_mem_singleton.mpr below

end Foundation
