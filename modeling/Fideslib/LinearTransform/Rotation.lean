/-
This file models the normalisation of rotation indices.
-/

import Fideslib.Library.SlotRotation

namespace Fideslib.LinearTransform

open SlotRotation (rotateSlots)

/-- The remainder of the source has the sign of the index. -/
def normalyzeIndex (index slots N : Int) : Int :=
  let reduced := index.tmod slots
  let shifted := if reduced < 0 then reduced + slots else reduced
  if slots.tdiv 2 < shifted then shifted + (N.tdiv 2 - slots) else shifted

section

variable {slots N : Nat}

theorem normalyzeIndex_congr (divides : slots ∣ N / 2) (index : Int) :
    (slots : Int) ∣ normalyzeIndex index slots N - index := by
  have whole : (slots : Int) ∣ (N : Int).tdiv 2 := by
    rw [show (N : Int).tdiv 2 = ((N / 2 : Nat) : Int) from rfl]
    exact Int.natCast_dvd_natCast.mpr divides
  have reduced : (slots : Int) ∣ index.tmod slots - index := by
    rw [Int.tmod_def]
    exact ⟨-index.tdiv slots, by ring⟩
  have shifted : (slots : Int) ∣
      (if index.tmod slots < 0 then index.tmod slots + slots else index.tmod slots) - index := by
    by_cases negative : index.tmod slots < 0
    · rw [if_pos negative, add_sub_right_comm]
      exact dvd_add reduced dvd_rfl
    · rw [if_neg negative]
      exact reduced
  rw [normalyzeIndex]
  by_cases high : (slots : Int).tdiv 2 <
      if index.tmod slots < 0 then index.tmod slots + slots else index.tmod slots
  · rw [if_pos high, add_sub_right_comm]
    exact dvd_add shifted (dvd_sub whole dvd_rfl)
  · rw [if_neg high]
    exact shifted

/-- An index is normalised to zero exactly when it is a multiple of the slot count. -/
theorem normalyzeIndex_eq_zero (positive : 0 < slots) (divides : slots ∣ N / 2)
    (index : Int) :
    normalyzeIndex index slots N = 0 ↔ (slots : Int) ∣ index := by
  constructor
  · intro zero
    have same := normalyzeIndex_congr divides index
    rw [zero, zero_sub, dvd_neg] at same
    exact same
  · intro multiple
    rw [normalyzeIndex, Int.tmod_eq_zero_of_dvd multiple]
    rw [if_neg (lt_irrefl 0), if_neg]
    rw [not_lt]
    exact Int.tdiv_nonneg (by omega) (by decide)

/-- A normalised index is a rotation of the full ring. -/
theorem normalyzeIndex_range (positive : 0 < slots) (divides : slots ∣ N / 2) (full : 0 < N / 2)
    (index : Int) :
    0 ≤ normalyzeIndex index slots N ∧ normalyzeIndex index slots N < (N / 2 : Nat) := by
  have below : slots ≤ N / 2 := Nat.le_of_dvd full divides
  have low : -(slots : Int) < index.tmod slots := by
    have bound := Int.lt_tmod_of_pos index (show (0 : Int) < slots by omega)
    exact bound
  have high : index.tmod slots < slots := Int.tmod_lt_of_pos index (by omega)
  have half : (N : Int).tdiv 2 = ((N / 2 : Nat) : Int) := rfl
  simp only [normalyzeIndex, half]
  split_ifs <;> omega

end

section

variable {slots : Nat} {R : Type}

/-- A rotation by a trivial index is rejected. -/
def rotate (N : Nat) (vector : ZMod slots → R) (index : Int) : Option (ZMod slots → R) :=
  let normalised := normalyzeIndex index slots N
  if normalised = 0 then none else some (rotateSlots vector normalised)

/-- A hoisted rotation by a trivial index is a copy. -/
def rotateHoisted (N : Nat) (vector : ZMod slots → R) (index : Int) : ZMod slots → R :=
  let normalised := normalyzeIndex index slots N
  if normalised = 0 then vector else rotateSlots vector normalised

variable {N : Nat}

theorem rotate_of_dvd (positive : 0 < slots) (divides : slots ∣ N / 2)
    (vector : ZMod slots → R) {index : Int} (trivial : (slots : Int) ∣ index) :
    rotate N vector index = none :=
  if_pos ((normalyzeIndex_eq_zero positive divides index).mpr trivial)

theorem rotate_of_not_dvd (positive : 0 < slots) (divides : slots ∣ N / 2)
    (vector : ZMod slots → R) {index : Int} (proper : ¬(slots : Int) ∣ index) :
    rotate N vector index = some (rotateSlots vector index) := by
  rw [rotate, if_neg fun zero =>
    proper ((normalyzeIndex_eq_zero positive divides index).mp zero)]
  rw [SlotRotation.rotateSlots_congr vector (normalyzeIndex_congr divides index)]

theorem rotateHoisted_eq (divides : slots ∣ N / 2)
    (vector : ZMod slots → R) (index : Int) :
    rotateHoisted N vector index = rotateSlots vector index := by
  have same := normalyzeIndex_congr divides index
  rw [rotateHoisted, ← SlotRotation.rotateSlots_congr vector same]
  by_cases zero : normalyzeIndex index slots N = 0
  · rw [if_pos zero, zero, SlotRotation.rotateSlots_zero]
  · rw [if_neg zero]

end

end Fideslib.LinearTransform
