/-
This file settles what the rotation folds compute and which rotation keys they need.
-/

import Mathlib.Data.Nat.Size
import Fideslib.LinearTransform.RotationFold

namespace Fideslib.LinearTransform

open SlotRotation (rotateSlots)

section Radix

theorem checkBStep_pow {b : Nat} (radix : 0 < b) (called : String) :
    checkBStep (2 ^ b) called = .ok () := by
  have large : ¬2 ^ b < 2 := Nat.not_lt.mpr (Nat.one_lt_two_pow radix.ne')
  have power : 2 ^ b &&& (2 ^ b - 1) = 0 := by
    rw [Nat.and_two_pow_sub_one_eq_mod, Nat.mod_self]
  simp only [checkBStep, large, power, ne_eq, not_true, or_self, if_false]

theorem logbStep_pow (b : Nat) : logbStep (2 ^ b) = b := by
  rw [logbStep, Nat.size_pow, Nat.add_sub_cancel]

/-- One round rotates by this many multiples of its stride. -/
theorem forwardIndexes_eq {bStep stride size s : Nat} (strided : 0 < stride)
    (nonempty : 0 < size) (positive : 0 < s) :
    forwardIndexes bStep (stride * size) (stride * s) =
      (List.range (min ((size - 1) / s) (bStep - 1))).map
        fun i : Nat => ((stride * s * (i + 1) : Nat) : Int) := by
  have step : 0 < stride * s := Nat.mul_pos strided positive
  have all : (stride * size - 1) / (stride * s) = (size - 1) / s := by
    have whole : stride * size - 1 = stride * (size - 1) + (stride - 1) := by
      obtain ⟨size, rfl⟩ : ∃ rest, size = rest + 1 := ⟨size - 1, by omega⟩
      rw [Nat.mul_succ, Nat.add_sub_cancel]
      omega
    have inner : (stride * (size - 1) + (stride - 1)) / stride = size - 1 := by
      rw [Nat.mul_add_div strided, Nat.div_eq_of_lt (Nat.sub_one_lt strided.ne'), Nat.add_zero]
    rw [← Nat.div_div_eq_div_mul, whole, inner]
  have radix : (bStep * (stride * s) - 1) / (stride * s) = bStep - 1 := by
    rw [Nat.mul_comm]
    cases bStep with
    | zero => simp
    | succ bStep =>
        rw [Nat.mul_succ, Nat.add_sub_assoc step, Nat.mul_add_div step,
          Nat.div_eq_of_lt (by omega)]
        rfl
  have both : (min (stride * size) (bStep * (stride * s)) - 1) / (stride * s) =
      min ((size - 1) / s) (bStep - 1) := by
    rcases Nat.le_total (stride * size) (bStep * (stride * s)) with less | less
    · have order := @Nat.div_le_div_right _ _ (stride * s) (Nat.sub_le_sub_right less 1)
      rw [all, radix] at order
      rw [Nat.min_eq_left less, all, Nat.min_eq_left order]
    · have order := @Nat.div_le_div_right _ _ (stride * s) (Nat.sub_le_sub_right less 1)
      rw [all, radix] at order
      rw [Nat.min_eq_right less, radix, Nat.min_eq_right order]
  rw [forwardIndexes, strided_eq step, both, List.map_map]
  rfl

end Radix

section Sums

variable {slots N : Nat} {R : Type} [CommRing R]

/-- This is the sum of the first rotations by multiples of a stride. -/
def rotationSum (ctxt : ZMod slots → R) (stride count : Nat) : ZMod slots → R :=
  ∑ j ∈ Finset.range count, rotateSlots ctxt ((j * stride : Nat) : Int)

theorem rotationSum_one (ctxt : ZMod slots → R) (stride : Nat) :
    rotationSum ctxt stride 1 = ctxt := by
  rw [rotationSum, Finset.sum_range_one, Nat.zero_mul, Nat.cast_zero,
    SlotRotation.rotateSlots_zero]

/-- Rotated copies of a sum are the next parts of a longer one. -/
theorem rotationSum_blocks (ctxt : ZMod slots → R) (stride s count : Nat) :
    ∑ i ∈ Finset.range count,
        rotateSlots (rotationSum ctxt stride s) ((stride * s * i : Nat) : Int) =
      rotationSum ctxt stride (s * count) := by
  rw [rotationSum, rotationSum, ← SlotRotation.sum_blocks _ s count]
  apply Finset.sum_congr rfl
  intro i _
  rw [SlotRotation.rotateSlots_sum]
  apply Finset.sum_congr rfl
  intro j _
  rw [SlotRotation.rotateSlots_rotateSlots]
  congr 1
  push_cast
  ring

/-- A forward round multiplies the number of terms. -/
theorem forward_round (divides : slots ∣ N / 2) (ctxt : ZMod slots → R) {bStep stride size s : Nat}
    (strided : 0 < stride) (nonempty : 0 < size) (positive : 0 < s) (before : List Int) :
    rotationSum ctxt stride s + (rotate_hoisted N ⟨rotationSum ctxt stride s, before⟩
        (forwardIndexes bStep (stride * size) (stride * s))).sum =
      rotationSum ctxt stride (s * (min ((size - 1) / s) (bStep - 1) + 1)) := by
  rw [forwardIndexes_eq strided nonempty positive, rotate_hoisted, List.map_map,
    ← rotationSum_blocks ctxt stride s, Finset.sum_range_succ', Nat.mul_zero, Nat.cast_zero,
    SlotRotation.rotateSlots_zero, add_comm, SlotRotation.sum_map_range]
  congr 1
  apply Finset.sum_congr rfl
  intro i _
  exact rotateHoisted_eq divides _ _

end Sums

section Accumulate

/-- This is the stride of the last round in multiples of the first one. -/
def lastStep (bStep size : Nat) : Nat := bStep ^ Nat.log bStep (size - 1)

/-- The fold rounds the number of terms up to a multiple of its last step. -/
def reached (bStep size : Nat) : Nat :=
  lastStep bStep size * ((size - 1) / lastStep bStep size + 1)

theorem reached_eq_iff {bStep size : Nat} (radix : 0 < bStep) (nonempty : 0 < size) :
    reached bStep size = size ↔ lastStep bStep size ∣ size := by
  have positive : 0 < lastStep bStep size := Nat.pow_pos radix
  constructor
  · intro same
    exact ⟨_, same.symm⟩
  · rintro ⟨count, whole⟩
    rw [reached]
    generalize lastStep bStep size = step at positive whole
    obtain ⟨rest, rfl⟩ : ∃ rest, count = rest + 1 := by
      refine ⟨count - 1, ?_⟩
      rcases Nat.eq_zero_or_pos count with zero | more
      · rw [zero, Nat.mul_zero] at whole
        omega
      · omega
    have quotient : (size - 1) / step = rest := by
      rw [whole, Nat.mul_succ, Nat.add_sub_assoc positive, Nat.mul_add_div positive,
        Nat.div_eq_of_lt (by omega), Nat.add_zero]
    rw [quotient, whole]

variable {slots N : Nat} {R : Type} [CommRing R]

/-- The counter is a power of the radix, and the sum has the terms of all earlier rounds. -/
def Folded (ctxt : ZMod slots → R) (bStep stride size s : Nat) (state : Issued slots R) : Prop :=
  ∃ k, s = bStep ^ k ∧
    ((k = 0 ∧ state.vector = ctxt) ∨
      (∃ e, k = e + 1 ∧ bStep ^ e < size ∧ state.vector =
        rotationSum ctxt stride (bStep ^ e * (min ((size - 1) / bStep ^ e) (bStep - 1) + 1))))

/-- Before the last round the sum has as many terms as the counter says. -/
theorem Folded.vector {ctxt : ZMod slots → R} {bStep stride size s : Nat}
    {state : Issued slots R} (held : Folded ctxt bStep stride size s state) (radix : 0 < bStep)
    (inside : s < size) : state.vector = rotationSum ctxt stride s := by
  obtain ⟨k, rfl, ⟨rfl, start⟩ | ⟨e, rfl, _, folded⟩⟩ := held
  · rw [start, pow_zero, rotationSum_one]
  · have full : bStep - 1 ≤ (size - 1) / bStep ^ e := by
      rw [Nat.le_div_iff_mul_le (Nat.pow_pos radix)]
      rw [pow_succ'] at inside
      have less : (bStep - 1) * bStep ^ e ≤ bStep * bStep ^ e :=
        Nat.mul_le_mul_right _ (Nat.sub_le _ _)
      omega
    rw [folded, Nat.min_eq_right full, Nat.sub_add_cancel radix, pow_succ]

theorem accumulateRound_folded (divides : slots ∣ N / 2) {ctxt : ZMod slots → R}
    {b stride size s : Nat} (strided : 0 < stride) (positive : 0 < s) (inside : s < size)
    {state : Issued slots R} (held : Folded ctxt (2 ^ b) stride size s state) :
    ∃ next, accumulateRound N (2 ^ b) stride size s state = some next ∧
      Folded ctxt (2 ^ b) stride size (s <<< b) next := by
  have vector := held.vector (Nat.two_pow_pos b) inside
  refine ⟨_, rfl, ?_⟩
  obtain ⟨k, isPower, _⟩ := held
  refine ⟨k + 1, ?_, .inr ⟨k, rfl, isPower ▸ inside, ?_⟩⟩
  · rw [Nat.shiftLeft_eq, isPower, ← pow_succ]
  · have round : rotationSum ctxt stride s + (rotate_hoisted N
          ⟨rotationSum ctxt stride s, state.rotations⟩
          (forwardIndexes (2 ^ b) (stride * size) (stride * s))).sum =
        rotationSum ctxt stride (s * (min ((size - 1) / s) (2 ^ b - 1) + 1)) :=
      forward_round divides ctxt strided (positive.trans inside) positive state.rotations
    rw [← vector, isPower] at round
    rw [← round, isPower]

/-- At the end the last counter below the size is the last step. -/
theorem Folded.final {ctxt : ZMod slots → R} {bStep stride size s : Nat} {state : Issued slots R}
    (held : Folded ctxt bStep stride size s state) (radix : 1 < bStep) (nonempty : 0 < size)
    (beyond : size ≤ s) : state.vector = rotationSum ctxt stride (reached bStep size) := by
  obtain ⟨k, rfl, ⟨rfl, start⟩ | ⟨e, rfl, below, folded⟩⟩ := held
  · obtain rfl : size = 1 := by
      rw [pow_zero] at beyond
      omega
    have one : reached bStep 1 = 1 := by
      simp [reached, lastStep]
    rw [start, one, rotationSum_one]
  · have last : Nat.log bStep (size - 1) = e := by
      apply Nat.log_eq_of_pow_le_of_lt_pow
      · omega
      · omega
    have few : (size - 1) / bStep ^ e ≤ bStep - 1 := by
      have less : (size - 1) / bStep ^ e < bStep := by
        rw [Nat.div_lt_iff_lt_mul (Nat.pow_pos (by omega)), ← pow_succ']
        omega
      omega
    rw [folded, Nat.min_eq_left few, reached, lastStep, last]

/-- The fold returns, and it issues exactly the rotations of the list. -/
theorem accumulate_returns (divides : slots ∣ N / 2) (ctxt : ZMod slots → R) {b stride size : Nat}
    (radix : 0 < b) (strided : 0 < stride) (nonempty : 0 < size) :
    ∃ fuel result, Accumulate fuel N ctxt (2 ^ b) stride size 1 = .ok (.some result) ∧
      GetAccumulateRotationIndices fuel (2 ^ b) stride size = .ok (.some result.rotations) ∧
      result.vector = rotationSum ctxt stride (reached (2 ^ b) size) := by
  have first : Folded ctxt (2 ^ b) stride size 1 ⟨ctxt, []⟩ := ⟨0, rfl, .inl ⟨rfl, rfl⟩⟩
  obtain ⟨fuel, last, result, ran, beyond, held⟩ :=
    ShiftLoop.run_returns (Folded ctxt (2 ^ b) stride size) radix
      (fun s state positive inside held =>
        accumulateRound_folded divides strided positive inside held) Nat.one_pos first
  have kept (s : Nat) (state next : Issued slots R) (indices : List Int) (_ : s < size)
      (same : indices = state.rotations)
      (moved : accumulateRound N (2 ^ b) stride size s state = some next) :
      ∃ after, some (indices ++ forwardIndexes (2 ^ b) (stride * size) (stride * s)) =
        some after ∧ after = next.rotations := by
    cases moved
    exact ⟨_, rfl, by rw [same]⟩
  have listed := @ShiftLoop.run_scaled (Issued slots R) (List Int) size b
    (accumulateRound N (2 ^ b) stride size) stride strided
    (fun s indices => some (indices ++ forwardIndexes (2 ^ b) (stride * size) s))
    (fun state indices => indices = state.rotations) kept fuel 1 ⟨ctxt, []⟩ result [] rfl ran
  obtain ⟨indices, collected, rfl⟩ := listed
  have positive : ¬(1 = 0 ∨ size = 0) := by omega
  refine ⟨fuel, result, ?_, ?_, held.final (Nat.one_lt_two_pow radix.ne') nonempty beyond⟩
  · rw [Accumulate, checkBStep_pow radix, logbStep_pow]
    simp only [bind, Except.bind, if_neg positive, ran]
    rfl
  · rw [GetAccumulateRotationIndices, checkBStep_pow radix, logbStep_pow]
    rw [Nat.mul_one] at collected
    simp only [bind, Except.bind, collected]
    rfl

/-- Runs with different fuel give one result. -/
theorem accumulate_unique {ctxt : ZMod slots → R} {b stride size first second : Nat}
    (radix : 0 < b) (nonempty : 0 < size) {one two : Issued slots R}
    (ranFirst : Accumulate first N ctxt (2 ^ b) stride size 1 = .ok (some one))
    (ranSecond : Accumulate second N ctxt (2 ^ b) stride size 1 = .ok (some two)) : one = two := by
  have positive : ¬(1 = 0 ∨ size = 0) := by omega
  simp only [Accumulate, checkBStep_pow radix, bind, Except.bind, if_neg positive] at ranFirst ranSecond
  exact ShiftLoop.run_unique (Except.ok.inj ranFirst) (Except.ok.inj ranSecond)

/-- A power of two is reached exactly. -/
theorem reached_pow (b k : Nat) : reached (2 ^ b) (2 ^ k) = 2 ^ k := by
  rw [reached_eq_iff (Nat.two_pow_pos b) (Nat.two_pow_pos k), lastStep]
  have below : (2 ^ b) ^ Nat.log (2 ^ b) (2 ^ k - 1) ≤ 2 ^ k := by
    rcases Nat.eq_zero_or_pos (2 ^ k - 1) with zero | more
    · rw [zero, Nat.log_zero_right, pow_zero]
      exact Nat.one_le_two_pow
    · exact (Nat.pow_log_le_self _ more.ne').trans (Nat.sub_le _ _)
  rw [← pow_mul] at below ⊢
  exact pow_dvd_pow 2 ((Nat.pow_le_pow_iff_right Nat.one_lt_two).mp below)

/-- The fold sums the rotations below a size and issues rotations of the list only. -/
def AccumulateRight (R : Type) [CommRing R] (bStep stride size : Nat) : Prop :=
  ∀ (slots N : Nat) (ctxt : ZMod slots → R), slots ∣ N / 2 →
    ∃ fuel result indices, Accumulate fuel N ctxt bStep stride size 1 = .ok (some result) ∧
      GetAccumulateRotationIndices fuel bStep stride size = .ok (some indices) ∧
      result.vector = rotationSum ctxt stride size ∧ ∀ idx ∈ result.rotations, idx ∈ indices

/-- The fold sums the rotations below the size that it reaches, and a power of two is the size. -/
theorem accumulate_sums (R : Type) [CommRing R] (slots N b stride size : Nat)
    (ctxt : ZMod slots → R) (divides : slots ∣ N / 2) (radix : 1 ≤ b) (strided : 1 ≤ stride)
    (nonempty : 1 ≤ size) :
    (∃ fuel result indices, Accumulate fuel N ctxt (2 ^ b) stride size 1 = .ok (some result) ∧
      GetAccumulateRotationIndices fuel (2 ^ b) stride size = .ok (some indices) ∧
      result.vector = rotationSum ctxt stride (reached (2 ^ b) size) ∧
      ∀ idx ∈ result.rotations, idx ∈ indices) ∧
    (reached (2 ^ b) size = size ↔ lastStep (2 ^ b) size ∣ size) ∧
    ∀ k, size = 2 ^ k → reached (2 ^ b) size = size := by
  obtain ⟨fuel, result, ran, listed, vector⟩ :=
    accumulate_returns divides ctxt radix strided nonempty
  refine ⟨⟨fuel, result, _, ran, listed, vector, fun idx issued => issued⟩,
    reached_eq_iff (Nat.two_pow_pos b) nonempty, ?_⟩
  rintro k rfl
  exact reached_pow b k

theorem accumulate_sums_eight :
    (∃ fuel result indices,
      Accumulate fuel 16 (Pi.single (3 : ZMod 8) (1 : Int)) (2 ^ 2) 1 8 1 = .ok (some result) ∧
      GetAccumulateRotationIndices fuel (2 ^ 2) 1 8 = .ok (some indices) ∧
      result.vector = rotationSum (Pi.single 3 1) 1 (reached (2 ^ 2) 8) ∧
      ∀ idx ∈ result.rotations, idx ∈ indices) ∧
    (reached (2 ^ 2) 8 = 8 ↔ lastStep (2 ^ 2) 8 ∣ 8) ∧ ∀ k, 8 = 2 ^ k → reached (2 ^ 2) 8 = 8 :=
  accumulate_sums Int 8 16 2 1 8 (Pi.single 3 1) (by decide) (by decide) (by decide) (by decide)

/-- With radix two a size of three is rounded up to four. -/
theorem accumulate_three_overcounts : ¬AccumulateRight Int 2 1 3 := by
  intro right
  obtain ⟨first, one, _, ranFirst, _, claimed, _⟩ := right 8 16 (Pi.single 3 1) (by decide)
  obtain ⟨second, two, ranSecond, _, summed⟩ :=
    @accumulate_returns 8 16 Int _ (by decide) (Pi.single 3 1) 1 1 3 (by decide) (by decide)
      (by decide)
  have same := accumulate_unique Nat.one_pos (by decide) ranFirst ranSecond
  have four : reached (2 ^ 1) 3 = 4 := by
    have log : Nat.log 2 2 = 1 := Nat.log_eq_of_pow_le_of_lt_pow (by decide) (by decide)
    simp [reached, lastStep, log]
  rw [same, summed, four] at claimed
  have read := congrFun claimed 0
  revert read
  simp only [rotationSum, Finset.sum_apply, rotateSlots]
  decide

end Accumulate

section Broadcast

variable {slots N : Nat} {R : Type} [CommRing R]

/-- The last round rotates back by every multiple that the size still holds. -/
theorem backwardIndexes_eq {bStep stride s count : Nat} (strided : 0 < stride) (positive : 0 < s)
    (few : count ≤ bStep) :
    backwardIndexes bStep (stride * (s * count)) (stride * s) =
      (List.range count).map fun i : Nat => -(((i + 1) * (stride * s) : Nat) : Int) + 1 := by
  have kept (i : Nat) : -(-(((i + 1) * (stride * s) : Nat) : Int) + 1) <
      ((stride * (s * count) : Nat) : Int) ↔ i < count := by
    have step : 0 < stride * s := Nat.mul_pos strided positive
    have order : (i + 1) * (stride * s) ≤ count * (stride * s) ↔ i + 1 ≤ count :=
      Nat.mul_le_mul_right_iff step
    have whole : stride * (s * count) = count * (stride * s) := by ring
    have large : 0 < (i + 1) * (stride * s) := Nat.mul_pos i.succ_pos step
    rw [whole]
    generalize (i + 1) * (stride * s) = rotated at order large
    generalize count * (stride * s) = outsize at order
    omega
  obtain ⟨rest, rfl⟩ := Nat.exists_eq_add_of_le few
  rw [backwardIndexes, List.range_add, List.map_append, List.filter_append,
    List.filter_eq_self.mpr, List.filter_eq_nil_iff.mpr, List.append_nil]
  · intro idx listed
    rw [List.map_map, List.mem_map] at listed
    obtain ⟨i, _, rfl⟩ := listed
    simp only [Function.comp, decide_eq_true_eq, kept]
    omega
  · intro idx listed
    obtain ⟨i, inside, rfl⟩ := List.mem_map.mp listed
    exact decide_eq_true ((kept i).mpr (List.mem_range.mp inside))

/-- This is what the last round leaves. Every copy is one slot behind its place. -/
def backwardSum (ctxt : ZMod slots → R) (stride size : Nat) : ZMod slots → R :=
  ∑ t ∈ Finset.range size, rotateSlots ctxt (1 - ((t + 1) * stride : Nat))

/-- Backward copies of a sum that grew forwards fill the gaps from the far end. -/
theorem backward_round (divides : slots ∣ N / 2) (ctxt : ZMod slots → R) {bStep stride s count : Nat}
    (strided : 0 < stride) (positive : 0 < s) (few : count ≤ bStep) (before : List Int) :
    (rotate_hoisted N ⟨rotationSum ctxt stride s, before⟩
        (backwardIndexes bStep (stride * (s * count)) (stride * s))).sum =
      backwardSum ctxt stride (s * count) := by
  rw [backwardIndexes_eq strided positive few, rotate_hoisted, List.map_map, SlotRotation.sum_map_range,
    backwardSum, ← SlotRotation.sum_blocks _ s count]
  apply Finset.sum_congr rfl
  intro i _
  change rotateHoisted N (rotationSum ctxt stride s) _ = _
  rw [rotateHoisted_eq divides, rotationSum, SlotRotation.rotateSlots_sum,
    ← Finset.sum_range_reflect]
  apply Finset.sum_congr rfl
  intro j inside
  rw [Finset.mem_range] at inside
  rw [SlotRotation.rotateSlots_rotateSlots]
  congr 1
  obtain ⟨rest, whole⟩ : ∃ rest, s = rest + 1 + j := ⟨s - 1 - j, by omega⟩
  rw [whole, show rest + 1 + j - 1 - j = rest by omega]
  push_cast
  ring

theorem broadcastRound_last {bStep stride size outsize s : Nat} (ends : size ≤ s * bStep)
    (ctxt : Issued slots R)
    (two : 2 ≤ (backwardIndexes bStep outsize (stride * s)).length) :
    broadcastRound N bStep stride size outsize s ctxt = some {
      vector := (rotate_hoisted N ctxt (backwardIndexes bStep outsize (stride * s))).sum
      rotations := ctxt.rotations ++ backwardIndexes bStep outsize (stride * s) } := by
  rw [broadcastRound, if_pos ends]
  have length : (rotate_hoisted N ctxt (backwardIndexes bStep outsize (stride * s))).length =
      (backwardIndexes bStep outsize (stride * s)).length := by
    rw [rotate_hoisted, List.length_map]
  rw [← length] at two
  dsimp only
  cases parts : rotate_hoisted N ctxt (backwardIndexes bStep outsize (stride * s)) with
  | nil => simp [parts] at two
  | cons first rest =>
      cases rest with
      | nil => simp [parts] at two
      | cons second rest => rw [List.sum_cons, List.sum_cons, ← add_assoc]

/-- Before the last round the sum grows forwards. -/
def Grown (ctxt : ZMod slots → R) (stride size s : Nat) (state : Issued slots R) : Prop :=
  (∃ e, s = 2 ^ e) ∧
    ((s < size ∧ state.vector = rotationSum ctxt stride s) ∨
      (size ≤ s ∧ state.vector = backwardSum ctxt stride size))

theorem broadcastRound_grown (divides : slots ∣ N / 2) {ctxt : ZMod slots → R}
    {b stride k s : Nat} (strided : 0 < stride) (positive : 0 < s) (inside : s < 2 ^ k)
    {state : Issued slots R} (held : Grown ctxt stride (2 ^ k) s state) :
    ∃ next, broadcastRound N (2 ^ b) stride (2 ^ k) (stride * 2 ^ k) s state = some next ∧
      Grown ctxt stride (2 ^ k) (s <<< b) next := by
  obtain ⟨⟨e, rfl⟩, ⟨_, vector⟩ | ⟨beyond, _⟩⟩ := held
  · have shifted : 2 ^ e <<< b = 2 ^ (e + b) := by
      rw [Nat.shiftLeft_eq, pow_add]
    have powers : e < k := (Nat.pow_lt_pow_iff_right Nat.one_lt_two).mp inside
    by_cases ends : 2 ^ k ≤ 2 ^ e * 2 ^ b
    · -- The last round has as many copies as are missing.
      have few : k ≤ e + b := (Nat.pow_le_pow_iff_right Nat.one_lt_two).mp (by rwa [← pow_add] at ends)
      have whole : 2 ^ k = 2 ^ e * 2 ^ (k - e) := by
        rw [← pow_add, Nat.add_sub_cancel' powers.le]
      have count : 2 ^ (k - e) ≤ 2 ^ b := Nat.pow_le_pow_right Nat.two_pos (by omega)
      have two : 2 ≤ (backwardIndexes (2 ^ b) (stride * 2 ^ k) (stride * 2 ^ e)).length := by
        rw [whole, backwardIndexes_eq strided positive count, List.length_map, List.length_range]
        exact Nat.le_self_pow (by omega) 2
      have round := backward_round divides ctxt strided positive count state.rotations
      rw [← vector, ← whole] at round
      refine ⟨_, broadcastRound_last ends state two, ⟨e + b, shifted⟩, .inr ⟨?_, round⟩⟩
      rwa [shifted, pow_add]
    · have further : 2 ^ e * 2 ^ b < 2 ^ k := Nat.not_le.mp ends
      have round := @forward_round slots N R _ divides ctxt (2 ^ b) stride (2 ^ k) (2 ^ e) strided
        (positive.trans inside) positive state.rotations
      have full : 2 ^ b - 1 ≤ (2 ^ k - 1) / 2 ^ e := by
        rw [Nat.le_div_iff_mul_le positive]
        have less : (2 ^ b - 1) * 2 ^ e ≤ 2 ^ b * 2 ^ e := Nat.mul_le_mul_right _ (Nat.sub_le _ _)
        rw [Nat.mul_comm] at further
        omega
      rw [Nat.min_eq_right full, Nat.sub_add_cancel Nat.one_le_two_pow, ← vector] at round
      rw [broadcastRound, if_neg ends]
      refine ⟨_, rfl, ⟨e + b, shifted⟩, .inl ⟨?_, ?_⟩⟩
      · rwa [shifted, pow_add]
      · rw [shifted, pow_add]
        exact round
  · omega

theorem broadcast_eq_run {b initsize outsize fuel : Nat} (radix : 0 < b) (ctxt : ZMod slots → R) :
    Broadcast fuel N ctxt (2 ^ b) initsize outsize = .ok (ShiftLoop.run (outsize / initsize) b
      (broadcastRound N (2 ^ b) initsize (outsize / initsize) outsize) fuel 1 ⟨ctxt, []⟩) := by
  rw [Broadcast, checkBStep_pow radix, logbStep_pow]
  rfl

/-- The fold returns, and with two copies or more every copy is one slot behind its place. -/
theorem broadcast_returns (divides : slots ∣ N / 2) (ctxt : ZMod slots → R) {b stride k : Nat}
    (radix : 0 < b) (strided : 0 < stride) :
    ∃ fuel result, Broadcast fuel N ctxt (2 ^ b) stride (stride * 2 ^ k) = .ok (some result) ∧
      result.vector = if k = 0 then ctxt else backwardSum ctxt stride (2 ^ k) := by
  have ratio : stride * 2 ^ k / stride = 2 ^ k := Nat.mul_div_cancel_left _ strided
  by_cases single : k = 0
  · refine ⟨1, ⟨ctxt, []⟩, ?_, (if_pos single).symm⟩
    rw [broadcast_eq_run radix, ratio, single, ShiftLoop.run_stop (by decide)]
  · have first : Grown ctxt stride (2 ^ k) 1 ⟨ctxt, []⟩ :=
      ⟨⟨0, rfl⟩, .inl ⟨Nat.one_lt_two_pow single, (rotationSum_one ctxt stride).symm⟩⟩
    obtain ⟨fuel, last, result, ran, beyond, held⟩ :=
      ShiftLoop.run_returns (Grown ctxt stride (2 ^ k)) radix
        (fun s state positive inside held =>
          broadcastRound_grown divides strided positive inside held) Nat.one_pos first
    refine ⟨fuel, result, ?_, ?_⟩
    · rw [broadcast_eq_run radix, ratio, ran]
    · obtain ⟨_, ⟨inside, _⟩ | ⟨_, vector⟩⟩ := held
      · omega
      · rw [if_neg single, vector]

theorem broadcast_unique {ctxt : ZMod slots → R} {b initsize outsize first second : Nat}
    (radix : 0 < b) {one two : Issued slots R}
    (ranFirst : Broadcast first N ctxt (2 ^ b) initsize outsize = .ok (some one))
    (ranSecond : Broadcast second N ctxt (2 ^ b) initsize outsize = .ok (some two)) : one = two := by
  rw [broadcast_eq_run radix] at ranFirst ranSecond
  exact ShiftLoop.run_unique (Except.ok.inj ranFirst) (Except.ok.inj ranSecond)

/-- From a single slot the list has the rotations that the fold issues. -/
theorem broadcast_listed {ctxt : ZMod slots → R} {b outsize fuel : Nat} (radix : 0 < b)
    {result : Issued slots R}
    (ran : Broadcast fuel N ctxt (2 ^ b) 1 outsize = .ok (some result)) :
    GetbroadcastRotationIndices fuel (2 ^ b) 1 outsize = .ok (some result.rotations) := by
  rw [broadcast_eq_run radix] at ran
  have kept (s : Nat) (state next : Issued slots R) (indices : List Int) (_ : s < outsize / 1)
      (same : indices = state.rotations)
      (moved : broadcastRound N (2 ^ b) 1 (outsize / 1) outsize s state = some next) :
      ∃ after, some (indices ++ if 1 * (outsize / 1) ≤ 1 * (1 * s) * 2 ^ b then
        backwardIndexes (2 ^ b) outsize (1 * s)
      else forwardIndexes (2 ^ b) (1 * (outsize / 1)) (1 * s)) = some after ∧
        after = next.rotations := by
    refine ⟨_, rfl, ?_⟩
    rw [broadcastRound] at moved
    by_cases ends : outsize / 1 ≤ s * 2 ^ b
    · have tested : 1 * (outsize / 1) ≤ 1 * (1 * s) * 2 ^ b := by simpa only [Nat.one_mul] using ends
      rw [if_pos ends] at moved
      rw [if_pos tested, same]
      dsimp only at moved
      split at moved
      · cases moved
        rfl
      · cases moved
    · have tested : ¬1 * (outsize / 1) ≤ 1 * (1 * s) * 2 ^ b := by simpa only [Nat.one_mul] using ends
      rw [if_neg ends] at moved
      cases moved
      rw [if_neg tested, same]
  have listed := @ShiftLoop.run_scaled (Issued slots R) (List Int) (outsize / 1) b
    (broadcastRound N (2 ^ b) 1 (outsize / 1) outsize) 1 Nat.one_pos
    (fun s indices => some (indices ++ if 1 * (outsize / 1) ≤ 1 * s * 2 ^ b then
        backwardIndexes (2 ^ b) outsize s
      else forwardIndexes (2 ^ b) (1 * (outsize / 1)) s))
    (fun state indices => indices = state.rotations) kept fuel 1 ⟨ctxt, []⟩ result [] rfl
    (Except.ok.inj ran)
  obtain ⟨indices, collected, rfl⟩ := listed
  rw [GetbroadcastRotationIndices, checkBStep_pow radix, logbStep_pow]
  exact congrArg Except.ok collected

/-- This is the sum of the copies of a vector behind its multiples. -/
def broadcastSum (ctxt : ZMod slots → R) (initsize outsize : Nat) : ZMod slots → R :=
  ∑ j ∈ Finset.range (outsize / initsize), rotateSlots ctxt (-((j * initsize : Nat) : Int))

theorem backwardSum_one (ctxt : ZMod slots → R) (outsize : Nat) :
    backwardSum ctxt 1 outsize = broadcastSum ctxt 1 outsize := by
  rw [backwardSum, broadcastSum, Nat.div_one]
  apply Finset.sum_congr rfl
  intro t _
  congr 1
  push_cast
  ring

/-- The fold leaves every copy once and issues rotations of the list only. -/
def BroadcastRight (R : Type) [CommRing R] (bStep initsize outsize : Nat) : Prop :=
  ∀ (slots N : Nat) (ctxt : ZMod slots → R), slots ∣ N / 2 →
    ∃ fuel result indices, Broadcast fuel N ctxt bStep initsize outsize = .ok (some result) ∧
      GetbroadcastRotationIndices fuel bStep initsize outsize = .ok (some indices) ∧
      result.vector = broadcastSum ctxt initsize outsize ∧
      ∀ idx ∈ result.rotations, idx ∈ indices

/-- From a single slot the copies are one behind multiples of one. -/
theorem broadcast_single_right {b : Nat} (radix : 0 < b) (d : Nat) :
    BroadcastRight R (2 ^ b) 1 (2 ^ d) := by
  intro slots N ctxt divides
  obtain ⟨fuel, result, ran, vector⟩ := @broadcast_returns slots N R _ divides ctxt b 1 d radix
    Nat.one_pos
  rw [Nat.one_mul] at ran
  refine ⟨fuel, result, _, ran, broadcast_listed radix ran, ?_, fun idx issued => issued⟩
  by_cases single : d = 0
  · rw [vector, if_pos single, single, broadcastSum, pow_zero, Nat.div_one, Finset.sum_range_one]
    simp
  · rw [vector, if_neg single, backwardSum_one]

/-- A single copy needs no rotation. -/
theorem broadcast_copy_right {b size : Nat} (radix : 0 < b) (positive : 0 < size) :
    BroadcastRight R (2 ^ b) size size := by
  intro slots N ctxt divides
  refine ⟨1, ⟨ctxt, []⟩, [], ?_, ?_, ?_, ?_⟩
  · rw [broadcast_eq_run radix, Nat.div_self positive, ShiftLoop.run_stop le_rfl]
  · rw [GetbroadcastRotationIndices, checkBStep_pow radix, logbStep_pow]
    exact congrArg Except.ok (ShiftLoop.run_stop (by rw [Nat.div_self positive, Nat.mul_one]) 0 [])
  · rw [broadcastSum, Nat.div_self positive, Finset.sum_range_one]
    simp
  · simp

/-- An odd distance never leads to the slot that the claimed copies start from. -/
theorem backwardSum_single_zero {stride size slots : Nat} (even : 2 ∣ stride) (wide : 2 ∣ slots) :
    backwardSum (Pi.single (0 : ZMod slots) (1 : R)) stride size 0 = 0 := by
  rw [backwardSum, Finset.sum_apply]
  apply Finset.sum_eq_zero
  intro t _
  rw [rotateSlots, zero_add, Pi.single_apply, if_neg]
  intro zero
  have multiple : (slots : Int) ∣ 1 - ((t + 1) * stride : Nat) :=
    (ZMod.intCast_zmod_eq_zero_iff_dvd _ slots).mp zero
  have odd : (2 : Int) ∣ 1 - ((t + 1) * stride : Nat) :=
    (Int.natCast_dvd_natCast.mpr wide).trans multiple
  have even' : (2 : Int) ∣ ((t + 1) * stride : Nat) :=
    Int.natCast_dvd_natCast.mpr (even.mul_left _)
  omega

theorem broadcastSum_single_zero {initsize size : Nat} (positive : 0 < initsize)
    (nonempty : 0 < size) :
    broadcastSum (Pi.single (0 : ZMod (initsize * size)) (1 : R)) initsize (initsize * size) 0 =
      1 := by
  rw [broadcastSum, Nat.mul_div_cancel_left _ positive, Finset.sum_apply,
    Finset.sum_eq_single_of_mem 0 (Finset.mem_range.mpr nonempty)]
  · rw [rotateSlots, zero_add, Nat.zero_mul, Nat.cast_zero, neg_zero, Int.cast_zero,
      Pi.single_eq_same]
  · intro j inside other
    rw [rotateSlots, zero_add, Pi.single_apply, if_neg]
    intro zero
    rw [Int.cast_neg, neg_eq_zero, Int.cast_natCast, ZMod.natCast_eq_zero_iff] at zero
    have bound : initsize * size ≤ j * initsize :=
      Nat.le_of_dvd (Nat.mul_pos (Nat.pos_of_ne_zero other) positive) zero
    rw [Nat.mul_comm] at bound
    have short : size ≤ j := Nat.le_of_mul_le_mul_right bound positive
    rw [Finset.mem_range] at inside
    omega

/-- A step of one is rejected before any rotation. -/
theorem broadcast_one_rejected (initsize outsize : Nat) : ¬BroadcastRight R 1 initsize outsize := by
  intro right
  obtain ⟨fuel, result, indices, ran, -⟩ := right 1 2 0 (dvd_refl 1)
  cases ran

/-- The list of this broadcast lacks the rotation by two. -/
example : GetbroadcastRotationIndices 4 2 2 8 = .ok (some [-1, -3, -3, -7]) := by decide

end Broadcast

end Fideslib.LinearTransform
