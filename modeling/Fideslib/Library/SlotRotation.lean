/-
This file develops rotations of cyclic vectors and their sums.
-/

import Mathlib.Algebra.BigOperators.Pi
import Mathlib.Data.ZMod.Basic
import Mathlib.Tactic

namespace SlotRotation

variable {slots : Nat} {R : Type}

/-- A rotation reads each slot at a fixed distance. -/
def rotateSlots (vector : ZMod slots → R) (index : Int) : ZMod slots → R :=
  fun slot => vector (slot + index)

@[simp] theorem rotateSlots_zero (vector : ZMod slots → R) : rotateSlots vector 0 = vector := by
  funext slot
  rw [rotateSlots, Int.cast_zero, add_zero]

theorem rotateSlots_rotateSlots (vector : ZMod slots → R) (first second : Int) :
    rotateSlots (rotateSlots vector first) second = rotateSlots vector (first + second) := by
  funext slot
  rw [rotateSlots, rotateSlots, rotateSlots, Int.cast_add, add_assoc, add_comm (second : ZMod slots)]

/-- Indices that agree modulo the number of slots rotate alike. -/
theorem rotateSlots_congr (vector : ZMod slots → R) {first second : Int}
    (same : (slots : Int) ∣ first - second) : rotateSlots vector first = rotateSlots vector second := by
  have equal : (first : ZMod slots) = second :=
    (ZMod.intCast_eq_intCast_iff_dvd_sub second first slots).mpr same |>.symm
  funext slot
  rw [rotateSlots, rotateSlots, equal]

theorem rotateSlots_of_dvd (vector : ZMod slots → R) {index : Int} (trivial : (slots : Int) ∣ index) :
    rotateSlots vector index = vector := by
  rw [@rotateSlots_congr slots R vector index 0 (by rw [sub_zero]; exact trivial),
    rotateSlots_zero]

theorem rotateSlots_mul [Mul R] (first second : ZMod slots → R) (index : Int) :
    rotateSlots (first * second) index = rotateSlots first index * rotateSlots second index := rfl

theorem rotateSlots_add [Add R] (first second : ZMod slots → R) (index : Int) :
    rotateSlots (first + second) index = rotateSlots first index + rotateSlots second index := rfl

theorem rotateSlots_sum [AddCommMonoid R] (vectors : Nat → ZMod slots → R) (count : Nat)
    (index : Int) :
    rotateSlots (∑ place ∈ Finset.range count, vectors place) index =
      ∑ place ∈ Finset.range count, rotateSlots (vectors place) index := by
  funext slot
  simp only [rotateSlots, Finset.sum_apply]

theorem sum_map_range {A : Type} [AddCommMonoid A] (terms : Nat → A) (count : Nat) :
    ((List.range count).map terms).sum = ∑ place ∈ Finset.range count, terms place := by
  induction count with
  | zero => rfl
  | succ count ih =>
      rw [List.range_succ, List.map_append, List.sum_append, ih, Finset.sum_range_succ]
      simp

/-- A sum over blocks of one size is a sum over all places. -/
theorem sum_blocks {A : Type} [AddCommMonoid A] (terms : Nat → A) (size count : Nat) :
    ∑ block ∈ Finset.range count, ∑ place ∈ Finset.range size, terms (size * block + place) =
      ∑ place ∈ Finset.range (size * count), terms place := by
  induction count with
  | zero => rfl
  | succ count ih =>
      rw [Finset.sum_range_succ, ih, Nat.mul_succ, Finset.sum_range_add]

end SlotRotation
