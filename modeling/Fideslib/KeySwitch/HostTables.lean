/-
This file proves that the tables the host fills are those that the kernels address.
-/

import Fideslib.KeySwitch.Digits
import Fideslib.Registry.DigitTables

namespace Fideslib.KeySwitch.Digits

open Registry (DigitRow)

variable {raw : RawParams} (digits : Digits raw)

/-- These are the rows that the loops leave for a digit of a context with one device. -/
def filledRow (d : Nat) (row : DigitRow) : DigitRow :=
  row.setLevels raw.L ((digits.DECOMPmeta d).map LimbRecord.id)
    ((digits.DIGITmeta d).map LimbRecord.id) raw.L

/-- A row of the tables agrees with the digit wherever the kernels read it at this level. -/
structure Filled (d k : Nat) (row : DigitRow) : Prop where
  fromCount : row.num_primeid_digit_from k = digits.num_primeid_digit_from d k
  toCount : row.num_primeid_digit_to k = digits.num_primeid_digit_to d k
  fromEntry : ∀ num < digits.num_primeid_digit_from d k,
    row.primeid_digit_from num = digits.primeid_digit_from d num ∧
      row.pos_in_digit (digits.primeid_digit_from d num) =
        digits.pos_in_digit d (digits.primeid_digit_from d num)
  toEntry : ∀ num < digits.num_primeid_digit_to d k,
    row.primeid_digit_to num = digits.primeid_digit_to d num ∧
      row.pos_in_digit (digits.primeid_digit_to d num) =
        digits.pos_in_digit d (digits.primeid_digit_to d num)

theorem ordered (d : Nat) : DigitRow.Ordered raw.L ((digits.DECOMPmeta d).map LimbRecord.id)
    ((digits.DIGITmeta d).map LimbRecord.id) := by
  rw [digits.DECOMPmeta_id, digits.DIGITmeta_id]
  refine DigitRow.ordered_of_ascending ?_ ?_ ?_ ?_ ?_ ?_ ?_
  · exact List.pairwise_lt_range.filter _
  · exact List.pairwise_lt_range.filter _
  · intro id member
    obtain ⟨k, -, rfl⟩ := List.mem_map.mp member
    exact Nat.le_add_right _ _
  · exact List.nodup_range.map (add_right_injective raw.L)
  · intro id member
    exact List.mem_range.mp (List.mem_filter.mp member).1
  · intro id member
    exact List.mem_range.mp (List.mem_filter.mp member).1
  · intro id member other
    have same := of_decide_eq_true (List.mem_filter.mp member).2
    have different := of_decide_eq_true (List.mem_filter.mp other).2
    exact different same

/-- The filled rows agree with the tables of the digit wherever these are read. -/
theorem filledRow_agrees (d : Nat) (row : DigitRow) {k : Nat} (level : k < raw.L) :
    digits.Filled d k (digits.filledRow d row) := by
  have ordered := digits.ordered d
  have describes := DigitRow.setLevels_describes ordered level row
  have lists := describes.lists ordered
  have fromCount : (((digits.DECOMPmeta d).map LimbRecord.id).filter fun id => id ≤ k).length =
      digits.num_primeid_digit_from d k := by
    rw [List.filter_map, List.length_map]
    rfl
  have toCount : (((digits.DIGITmeta d).map LimbRecord.id).filter
      fun id => id ≤ k ∨ raw.L ≤ id).length = digits.num_primeid_digit_to d k := by
    rw [List.filter_map, List.length_map]
    rfl
  refine ⟨describes.fromCount.trans fromCount, describes.toCount.trans toCount,
    fun num inside => ?_, fun num inside => ?_⟩
  · rw [← fromCount] at inside
    have entry := describes.fromEntry num inside
    obtain ⟨listed, live⟩ := (lists.source _).mpr ⟨num, describes.fromCount ▸ inside, rfl⟩
    have place := describes.fromPlace _ (List.mem_filter.mpr ⟨listed, decide_eq_true live⟩)
    rw [entry] at listed place
    exact ⟨entry, place.trans (if_pos listed).symm⟩
  · rw [← toCount] at inside
    have entry := describes.toEntry num inside
    obtain ⟨listed, live⟩ := (lists.target _).mpr ⟨num, describes.toCount ▸ inside, rfl⟩
    have place := describes.toPlace _ (List.mem_filter.mpr ⟨listed, decide_eq_true live⟩)
    rw [entry] at listed place
    have absent := fun decomp => ordered.apart _ decomp listed
    exact ⟨entry, place.trans (if_neg absent).symm⟩

end Fideslib.KeySwitch.Digits
