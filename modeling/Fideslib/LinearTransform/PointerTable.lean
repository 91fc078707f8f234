/-
This file proves which operand each entry of the pointer table leads to.
-/

import Fideslib.Library.PartialLists
import Fideslib.LinearTransform.DotProduct

namespace Fideslib.LinearTransform

theorem place_lt {count width row column : Nat} (inRow : row < count) (inColumn : column < width) :
    row * width + column < count * width := by
  calc row * width + column < (row + 1) * width := by rw [Nat.add_mul, one_mul]; omega
    _ ≤ count * width := Nat.mul_le_mul_right _ inRow

theorem place_split {count width place : Nat} (inside : place < count * width) :
    place / width < count ∧ place % width < width ∧
      place / width * width + place % width = place := by
  have positive : 0 < width := Nat.pos_of_ne_zero fun zero => by simp [zero] at inside
  exact ⟨Nat.div_lt_of_lt_mul (by rwa [mul_comm]), Nat.mod_lt _ positive,
    Nat.div_add_mod' place width⟩

theorem place_div {width row column : Nat} (inColumn : column < width) :
    (row * width + column) / width = row := by
  rw [add_comm, Nat.add_mul_div_right _ _ (by omega), Nat.div_eq_of_lt inColumn, zero_add]

/-- The vectors hold whole transforms, and each plaintext holds two words for each slot. -/
structure Batch.Sized (batch : Batch) (transforms : Nat) : Prop where
  transforms_pos : 0 < transforms
  bStep_pos : 0 < batch.bStep
  gStep_pos : 0 < batch.gStep
  stride_pos : 0 < batch.stride
  parallel_pos : 0 < batch.layout.num_parallel_parts
  limbsize_pos : 0 < batch.layout.limbsize
  modulus_pos : ∀ special limb, 0 < batch.layout.modulus special limb
  out : batch.out.length = 2 * (transforms * batch.stride * batch.gStep)
  input : batch.input.length = 2 * (transforms * batch.stride * batch.bStep)
  pt : batch.pt.length = transforms * batch.gStep * batch.bStep
  limbs : batch.checkLimbs
  slots : batch.slots ≠ 0 ∧ 2 * batch.slots ∣ batch.layout.N
  parts : ∀ part, some part ∈ batch.pt → part.slots ≠ 0 ∧ 2 * part.slots ∣ batch.layout.N ∧
    ∀ special limb, (Batch.words part special limb).length = 2 * part.slots

namespace Batch

variable {batch : Batch} {transforms : Nat}

/-- This is the operand behind an entry of one half of the table. -/
def slotOperand (batch : Batch) (slot : Nat) : Option Operand :=
  if slot < batch.out.length / 2 then some (.output (2 * slot))
  else if slot < batch.out.length then some (.output (2 * (slot - batch.out.length / 2) + 1))
  else if slot < batch.out.length + batch.input.length / 2 then
    some (.input (2 * (slot - batch.out.length)))
  else if slot < batch.out.length + batch.input.length then
    some (.input (2 * (slot - (batch.out.length + batch.input.length / 2)) + 1))
  else
    (batch.pt[slot - (batch.out.length + batch.input.length)]?.join).map fun _ =>
      .plaintext (slot - (batch.out.length + batch.input.length))

variable (sized : batch.Sized transforms) (single : batch.stride = 1)
include sized single

theorem out_length : batch.out.length = 2 * (transforms * batch.gStep) := by
  rw [sized.out, single, mul_one]

theorem input_length : batch.input.length = 2 * (transforms * batch.bStep) := by
  rw [sized.input, single, mul_one]

/-- One plaintext belongs to each transform. -/
theorem num_LT_eq : batch.num_LT = transforms := by
  have positive := sized.gStep_pos
  rw [num_LT, out_length sized single, Nat.mul_div_mul_left _ _ (by decide),
    Nat.mul_div_cancel _ positive]

theorem slotOperand_out {c place : Nat} (half : c < 2) (inside : place < transforms * batch.gStep) :
    batch.slotOperand (batch.offset_out c + place) = some (.output (2 * place + c)) := by
  have length := out_length sized single
  unfold slotOperand offset_out
  interval_cases c
  · simp only [if_true, zero_add]
    rw [if_pos (by omega)]
    rfl
  · rw [if_neg (by decide : ¬(1 : Nat) = 0), if_neg (by omega), if_pos (by omega)]
    simp only [Option.some.injEq, Operand.output.injEq]
    omega

theorem slotOperand_in {c place : Nat} (half : c < 2) (inside : place < transforms * batch.bStep) :
    batch.slotOperand (batch.offset_in c + place) = some (.input (2 * place + c)) := by
  have outs := out_length sized single
  have length := input_length sized single
  unfold slotOperand offset_in
  interval_cases c
  · simp only [if_true]
    rw [if_neg (by omega), if_neg (by omega), if_pos (by omega)]
    simp only [Option.some.injEq, Operand.input.injEq]
    omega
  · rw [if_neg (by decide : ¬(1 : Nat) = 0), if_neg (by omega), if_neg (by omega),
      if_neg (by omega), if_pos (by omega)]
    simp only [Option.some.injEq, Operand.input.injEq]
    omega

omit sized single in
theorem slotOperand_pt (place : Nat) :
    batch.slotOperand (batch.offset_pt + place) =
      (batch.pt[place]?.join).map fun _ => .plaintext place := by
  unfold slotOperand offset_pt
  rw [if_neg (by omega), if_neg (by omega), if_neg (by omega), if_neg (by omega),
    Nat.add_sub_cancel_left]

/-- Every assignment stays inside of the table and writes the operand of its slot. -/
theorem entries_agree {i : Nat} (inside : i < transforms) {entry : Nat × Option (Option Operand)}
    (member : entry ∈ batch.entries i) :
    entry.1 < batch.half ∧ entry.2 = some (batch.slotOperand entry.1) := by
  have outs := out_length sized single
  have inputs := input_length sized single
  have outEntry : ∀ c < 2, entry ∈ batch.outEntries i c →
      entry.1 < batch.half ∧ entry.2 = some (batch.slotOperand entry.1) := by
    intro c half member
    simp only [outEntries, single, List.range_one, List.flatMap_cons, List.flatMap_nil,
      List.append_nil, List.mem_map, List.mem_range, mul_one, zero_mul, add_zero] at member
    obtain ⟨k, inStep, rfl⟩ := member
    have place := place_lt inside inStep
    rw [slotOperand_out sized single half place]
    refine ⟨?_, ?_⟩
    · simp only [offset_out, Batch.half]
      split_ifs <;> omega
    · simp only [outAt]
      rw [if_pos (by omega)]
  have inEntry : ∀ c < 2, entry ∈ batch.inEntries i c →
      entry.1 < batch.half ∧ entry.2 = some (batch.slotOperand entry.1) := by
    intro c half member
    simp only [inEntries, single, List.range_one, List.flatMap_cons, List.flatMap_nil,
      List.append_nil, List.mem_map, List.mem_range, mul_one, zero_mul, add_zero] at member
    obtain ⟨k, inStep, rfl⟩ := member
    have place := place_lt inside inStep
    rw [slotOperand_in sized single half place]
    refine ⟨?_, ?_⟩
    · simp only [offset_in, Batch.half]
      split_ifs <;> omega
    · simp only [inAt]
      rw [if_pos (by omega)]
  have ptEntry : entry ∈ batch.ptEntries i →
      entry.1 < batch.half ∧ entry.2 = some (batch.slotOperand entry.1) := by
    intro member
    simp only [ptEntries, List.mem_flatMap, List.mem_map, List.mem_range] at member
    obtain ⟨j, inGiant, k, inBaby, rfl⟩ := member
    have row := place_lt inside inGiant
    have place := place_lt row inBaby
    have same : i * batch.gStep * batch.bStep + j * batch.bStep + k =
        (i * batch.gStep + j) * batch.bStep + k := by ring
    rw [same, slotOperand_pt]
    refine ⟨?_, ?_⟩
    · simp only [offset_pt, Batch.half, sized.pt]
      omega
    · have bound : (i * batch.gStep + j) * batch.bStep + k < batch.pt.length := by
        rw [sized.pt]
        exact place
      simp only [ptAt, List.getElem?_eq_getElem bound, Option.map_some, Option.join_some]
  simp only [entries, List.mem_append] at member
  rcases member with (((first | second) | first) | second) | plain
  · exact outEntry 0 (by decide) first
  · exact outEntry 1 (by decide) second
  · exact inEntry 0 (by decide) first
  · exact inEntry 1 (by decide) second
  · exact ptEntry plain

omit sized in
theorem outEntries_cover {c place : Nat} (inside : place < transforms * batch.gStep) :
    ∃ i < transforms, batch.offset_out c + place ∈ (batch.outEntries i c).map Prod.fst := by
  obtain ⟨row, column, whole⟩ := place_split inside
  refine ⟨place / batch.gStep, row, ?_⟩
  simp only [outEntries, single, List.range_one, List.flatMap_cons, List.flatMap_nil,
    List.append_nil, List.map_map, List.mem_map, List.mem_range, mul_one, zero_mul, add_zero]
  exact ⟨place % batch.gStep, column, by simp only [Function.comp, whole]⟩

omit sized in
theorem inEntries_cover {c place : Nat} (inside : place < transforms * batch.bStep) :
    ∃ i < transforms, batch.offset_in c + place ∈ (batch.inEntries i c).map Prod.fst := by
  obtain ⟨row, column, whole⟩ := place_split inside
  refine ⟨place / batch.bStep, row, ?_⟩
  simp only [inEntries, single, List.range_one, List.flatMap_cons, List.flatMap_nil,
    List.append_nil, List.map_map, List.mem_map, List.mem_range, mul_one, zero_mul, add_zero]
  exact ⟨place % batch.bStep, column, by simp only [Function.comp, whole]⟩

omit sized single in
theorem ptEntries_cover {place : Nat} (inside : place < transforms * batch.gStep * batch.bStep) :
    ∃ i < transforms, batch.offset_pt + place ∈ (batch.ptEntries i).map Prod.fst := by
  obtain ⟨inPlaces, column, whole⟩ := place_split inside
  obtain ⟨row, inGiant, places⟩ := place_split inPlaces
  refine ⟨place / batch.bStep / batch.gStep, row, ?_⟩
  simp only [ptEntries, List.map_flatMap, List.map_map, List.mem_flatMap, List.mem_map,
    List.mem_range]
  refine ⟨place / batch.bStep % batch.gStep, inGiant, place % batch.bStep, column, ?_⟩
  simp only [Function.comp]
  rw [← add_mul, places, whole]

/-- Some transform assigns every slot of the table. -/
theorem entries_cover {slot : Nat} (inside : slot < batch.half) :
    ∃ i < transforms, slot ∈ (batch.entries i).map Prod.fst := by
  have outs := out_length sized single
  have inputs := input_length sized single
  have plains := sized.pt
  simp only [Batch.half] at inside
  simp only [entries, List.map_append, List.mem_append]
  rcases lt_or_ge slot batch.out.length with inOut | pastOut
  · rcases lt_or_ge slot (batch.out.length / 2) with first | second
    · obtain ⟨i, row, member⟩ := @outEntries_cover batch transforms single 0 slot (by omega)
      have same : batch.offset_out 0 + slot = slot := zero_add slot
      rw [same] at member
      exact ⟨i, row, .inl (.inl (.inl (.inl member)))⟩
    · obtain ⟨i, row, member⟩ :=
        @outEntries_cover batch transforms single 1 (slot - batch.out.length / 2) (by omega)
      have same : batch.offset_out 1 + (slot - batch.out.length / 2) = slot := by
        change batch.out.length / 2 + _ = slot
        omega
      rw [same] at member
      exact ⟨i, row, .inl (.inl (.inl (.inr member)))⟩
  · rcases lt_or_ge slot (batch.out.length + batch.input.length) with inInput | pastInput
    · rcases lt_or_ge slot (batch.out.length + batch.input.length / 2) with first | second
      · obtain ⟨i, row, member⟩ :=
          @inEntries_cover batch transforms single 0 (slot - batch.out.length) (by omega)
        have same : batch.offset_in 0 + (slot - batch.out.length) = slot := by
          change batch.out.length + _ = slot
          omega
        rw [same] at member
        exact ⟨i, row, .inl (.inl (.inr member))⟩
      · obtain ⟨i, row, member⟩ := @inEntries_cover batch transforms single 1
          (slot - (batch.out.length + batch.input.length / 2)) (by omega)
        have same : batch.offset_in 1 + (slot - (batch.out.length + batch.input.length / 2)) =
            slot := by
          change batch.out.length + batch.input.length / 2 + _ = slot
          omega
        rw [same] at member
        exact ⟨i, row, .inl (.inr member)⟩
    · obtain ⟨i, row, member⟩ := @ptEntries_cover batch transforms
        (slot - (batch.out.length + batch.input.length)) (by omega)
      have same : batch.offset_pt + (slot - (batch.out.length + batch.input.length)) = slot := by
        change batch.out.length + batch.input.length + _ = slot
        omega
      rw [same] at member
      exact ⟨i, row, .inr member⟩

omit sized single in
theorem mem_allEntries {entry : Bool × Nat × Option (Option Operand)} :
    entry ∈ batch.allEntries ↔
      (entry.1 → batch.ext) ∧ ∃ i < batch.num_LT, entry.2 ∈ batch.entries i := by
  obtain ⟨special, entry⟩ := entry
  simp only [allEntries, List.mem_flatMap, List.mem_range, List.mem_append, List.mem_map,
    Prod.mk.injEq]
  cases special <;> cases extended : batch.ext <;> simp

omit sized single in
theorem halfOffset_eq {special : Bool} (allowed : special → batch.ext) :
    batch.halfOffset special = if special then batch.half else 0 := by
  cases special with
  | false => rfl
  | true =>
      have extended : batch.ext = true := allowed rfl
      simp only [halfOffset, size, extended, if_true]
      omega

omit sized single in
theorem halfOffset_lt {special : Bool} (allowed : special → batch.ext) {slot : Nat}
    (inside : slot < batch.half) : batch.halfOffset special + slot < batch.size := by
  rw [halfOffset_eq allowed]
  cases special with
  | false =>
      simp only [size, Bool.false_eq_true, if_false]
      split_ifs <;> omega
  | true =>
      have extended : batch.ext = true := allowed rfl
      simp only [size, extended, if_true]
      omega

def pointerAt (batch : Batch) (special : Bool) (slot : Nat) : Option Pointer :=
  (batch.slotOperand slot).map fun operand => ⟨operand, special⟩

/-- Every read inside of the table finds the pointer of its slot. -/
def IsTable (batch : Batch) (table : Nat → Option Pointer) : Prop :=
  ∀ (special : Bool) (slot : Nat), (special → batch.ext) → slot < batch.half →
    batch.readTable table special slot = some (batch.pointerAt special slot)

theorem data_ptrs_isTable : ∃ table, batch.data_ptrs = some table ∧ batch.IsTable table := by
  have transformsEq := num_LT_eq sized single
  -- each key of the table determines the pointer that any assignment to it stores
  let expected : Nat → Option Pointer := fun key =>
    if key < batch.half then batch.pointerAt false key
    else batch.pointerAt true (key - batch.half)
  have entryAgrees : ∀ entry ∈ batch.allEntries,
      entry.2.1 < batch.half ∧ entry.2.2 = some (batch.slotOperand entry.2.1) ∧
        (entry.1 → batch.ext) := by
    intro entry member
    obtain ⟨allowed, i, inside, inEntries⟩ := mem_allEntries.mp member
    rw [transformsEq] at inside
    obtain ⟨inHalf, operand⟩ := entries_agree sized single inside inEntries
    exact ⟨inHalf, operand, allowed⟩
  have ran := @PartialLists.foldlM_eq_foldl _ _ batch.assign
    (fun table entry => Function.update table (batch.halfOffset entry.1 + entry.2.1)
      (batch.pointerAt entry.1 entry.2.1)) batch.allEntries (fun _ => none) (by
    intro entry member before
    obtain ⟨inHalf, operand, allowed⟩ := entryAgrees entry member
    simp only [assign, operand, Option.bind_eq_bind, Option.bind_some,
      if_pos (halfOffset_lt allowed inHalf)]
    rfl)
  refine ⟨_, ran, ?_⟩
  intro special slot allowed inside
  have holds := @PartialLists.foldl_update_apply _ _ _ _
    (fun entry : Bool × Nat × Option (Option Operand) => batch.halfOffset entry.1 + entry.2.1)
    (fun entry => batch.pointerAt entry.1 entry.2.1) expected batch.allEntries (fun _ => none) (by
    intro entry member
    obtain ⟨inHalf, -, allowed⟩ := entryAgrees entry member
    simp only [expected]
    rw [halfOffset_eq allowed]
    cases entry.1 with
    | false => simp [inHalf]
    | true => simp) (batch.halfOffset special + slot)
  have written : batch.halfOffset special + slot ∈ batch.allEntries.map
      fun entry => batch.halfOffset entry.1 + entry.2.1 := by
    obtain ⟨i, row, member⟩ := entries_cover sized single inside
    obtain ⟨entry, inEntries, rfl⟩ := List.mem_map.mp member
    exact List.mem_map.mpr ⟨(special, entry),
      mem_allEntries.mpr ⟨allowed, i, by rwa [transformsEq], inEntries⟩, rfl⟩
  rw [if_pos written] at holds
  rw [readTable, if_pos (halfOffset_lt allowed inside), holds]
  simp only [expected]
  rw [halfOffset_eq allowed]
  cases special with
  | false => simp [inside]
  | true => simp

end Batch
end Fideslib.LinearTransform
