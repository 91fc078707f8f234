/-
This file describes the words that a batch of hoisted rotations computes.
-/

import Fideslib.KeySwitch.HoistedBatch
import Fideslib.KeySwitch.HoistedRotationLaw

namespace Fideslib.KeySwitch

open Fideslib.Modular
open Constants (SetupConstants)

theorem mem_strided {start stop step i : Nat} :
    i ∈ strided start stop step ↔ i < stop ∧ start ≤ i ∧ (i - start) % step = 0 := by
  rw [strided, List.mem_filter, List.mem_range, decide_eq_true_eq]

/-- Each number is visited by the thread of its remainder. -/
theorem mem_strided_mod {stop step i : Nat} (positive : 0 < step) (inside : i < stop) :
    i % step < step ∧ i ∈ strided (i % step) stop step := by
  have split := Nat.div_add_mod i step
  have whole : i - i % step = step * (i / step) := by omega
  refine ⟨Nat.mod_lt _ positive, mem_strided.mpr ⟨inside, Nat.mod_le _ _, ?_⟩⟩
  rw [whole, Nat.mul_mod_right]

/-- The blocks of a batch divide the ring. -/
theorem shrinkBlock_dvd (stride blockdimx : Nat) (power : ∃ k, blockdimx = 2 ^ k) :
    ∃ k, shrinkBlock stride blockdimx = 2 ^ k ∧ shrinkBlock stride blockdimx ≤ blockdimx := by
  fun_induction shrinkBlock stride blockdimx with
  | case1 blockdimx large inductionHypothesis =>
      obtain ⟨k, rfl⟩ := power
      obtain ⟨half, rfl⟩ : ∃ half, k = half + 1 := by
        cases k with
        | zero => exact absurd large.2 (by norm_num)
        | succ half => exact ⟨half, rfl⟩
      have halved : 2 ^ (half + 1) / 2 = 2 ^ half := by rw [pow_succ]; omega
      obtain ⟨k, same, bound⟩ := inductionHypothesis ⟨half, halved⟩
      exact ⟨k, same, bound.trans (Nat.div_le_self _ _)⟩
  | case2 blockdimx small =>
      obtain ⟨k, same⟩ := power
      exact ⟨k, same, le_rfl⟩

namespace Batch

variable {batch : Batch} {thread : BlockThread}

/-- The input words of a block have an address for each column, ciphertext and digit. -/
theorem in1_decode (column : thread.x < batch.blockDimX) (row : thread.z < batch.blockDimZ) (i : Nat) :
    batch.in1 thread i / batch.stride_in = i ∧
      batch.in1 thread i % batch.stride_in / batch.blockDimX = thread.z ∧
      batch.in1 thread i % batch.blockDimX = thread.x := by
  have positive : 0 < batch.blockDimX := by omega
  have low : thread.x + batch.blockDimX * thread.z < batch.stride_in := by
    calc thread.x + batch.blockDimX * thread.z < batch.blockDimX * 1 + batch.blockDimX * thread.z := by
          omega
      _ = batch.blockDimX * (1 + thread.z) := by ring
      _ ≤ batch.stride_in := Nat.mul_le_mul_left _ (by omega)
  have whole : 0 < batch.stride_in := by omega
  refine ⟨?_, ?_, ?_⟩
  · rw [in1, Nat.add_mul_div_right _ _ whole, Nat.div_eq_of_lt low, Nat.zero_add]
  · rw [in1, Nat.add_mul_mod_self_right, Nat.mod_eq_of_lt low, Nat.add_mul_div_left _ _ positive,
      Nat.div_eq_of_lt column, Nat.zero_add]
  · rw [in1, stride_in, ← Nat.mul_assoc, Nat.mul_comm i, Nat.mul_assoc, Nat.add_mul_mod_self_left,
      Nat.add_mul_mod_self_left, Nat.mod_eq_of_lt column]

theorem in1_lt (column : thread.x < batch.blockDimX) (row : thread.z < batch.blockDimZ) {i : Nat}
    (inside : i < batch.num_d) : batch.in1 thread i < batch.num_d * batch.stride_in := by
  have quotient := (in1_decode column row i).1
  have positive : 0 < batch.stride_in := Nat.mul_pos (by omega) (by omega)
  rw [← Nat.div_lt_iff_lt_mul positive, quotient]
  exact inside

/-- The key words follow the input words. -/
theorem ksk_decode (column : thread.x < batch.blockDimX) (half : thread.y < 2) (i : Nat) :
    let offset := batch.ksk thread i - batch.num_d * batch.stride_in
    batch.num_d * batch.stride_in ≤ batch.ksk thread i ∧ offset / batch.stride_ksk = i ∧
      offset % batch.stride_ksk / batch.blockDimX = thread.y ∧
      offset % batch.blockDimX = thread.x := by
  have positive : 0 < batch.blockDimX := by omega
  have low : thread.y * batch.blockDimX + thread.x < batch.stride_ksk := by
    have bound : thread.y * batch.blockDimX ≤ 1 * batch.blockDimX :=
      Nat.mul_le_mul_right _ (by omega)
    rw [stride_ksk]
    omega
  have whole : 0 < batch.stride_ksk := by omega
  have place : batch.ksk thread i - batch.num_d * batch.stride_in =
      thread.y * batch.blockDimX + thread.x + i * batch.stride_ksk := by
    rw [ksk]
    omega
  dsimp only
  rw [place]
  refine ⟨?_, ?_, ?_, ?_⟩
  · rw [ksk]
    omega
  · rw [Nat.add_mul_div_right _ _ whole, Nat.div_eq_of_lt low, Nat.zero_add]
  · rw [Nat.add_mul_mod_self_right, Nat.mod_eq_of_lt low, Nat.mul_comm, Nat.mul_add_div positive,
      Nat.div_eq_of_lt column, Nat.add_zero]
  · rw [stride_ksk, ← Nat.mul_assoc, Nat.mul_comm i, Nat.mul_assoc, Nat.add_mul_mod_self_left,
      Nat.mul_comm, Nat.mul_add_mod, Nat.mod_eq_of_lt column]

/-- The first row of threads works on the second component. -/
def component (y : Nat) : Component := if y = 0 then .c1 else .c0

/-- The arguments of a launch are the operands of a batch. -/
structure Describes {raw : RawParams} (digits : Digits raw) (level : Nat) (batch : Batch)
    (input : Nat → BatchInput) (keys : Nat → Option KeySwitchingKey) : Prop where
  count : batch.num_d = digits.num_d (level + 1)
  rows : batch.num_special = raw.K
  chain : ∀ z, batch.c1 z = (input z).source.limb
  extension : ∀ z, z < batch.blockDimZ → ∀ i, i < batch.num_d →
    batch.din1 (batch.num_d * z + i) = (input z).source.DIGITlimb i
  regular : ∀ z, batch.c0 z = (input z).c0.limb
  special : ∀ z, batch.sc0 z = (input z).c0.special
  modUp : ∀ z, z < batch.blockDimZ → (input z).c0.modUp = batch.c0_modup
  digit : ∀ j, j < batch.n → ∀ y, y < 2 → ∀ i, i < batch.num_d →
    batch.table ((2 * j + y) * (batch.num_d + 1) + i) =
      (keys j).map fun ksk => (ksk.half (component y)).DIGITlimb i
  limb : ∀ j, j < batch.n → ∀ y, y < 2 →
    batch.table ((2 * j + y) * (batch.num_d + 1) + batch.num_d) =
      (keys j).map fun ksk => (ksk.half (component y)).limb

/-- The threads of a block are those of its three dimensions. -/
def Fills (batch : Batch) (order : List BlockThread) : Prop :=
  ∀ thread : BlockThread, thread ∈ order ↔
    thread.x < batch.blockDimX ∧ thread.y < 2 ∧ thread.z < batch.blockDimZ

section Phases

variable {raw : RawParams} {digits : Digits raw} {level : Nat} (bound : level < raw.L)
  {input : Nat → BatchInput} {keys : Nat → Option KeySwitchingKey}
  (describes : Describes digits level batch input keys) {order : List BlockThread}
  (fills : batch.Fills order) {blockIdx : Nat × Nat} {id : Nat} (live : raw.Live level id)
  (row : blockIdx.2 = raw.row id)

include describes row

/-- The row of a prime of the chain is its place in the chain. -/
theorem pos_dec_eq (decomp : id < raw.L) : batch.pos_dec blockIdx = id := by
  rw [pos_dec, describes.rows, row, RawParams.row, if_pos decomp, Nat.add_sub_cancel_left]

include bound live

theorem primeid_eq : batch.primeid digits blockIdx = id := by
  rw [primeid, describes.rows, row, rowPrime_row digits bound live]

include fills

/-- After the first barrier each thread finds the input words of its column. -/
theorem loadIn_launch (uninitialised : Nat → Nat) {thread : BlockThread} (runs : thread ∈ order)
    {i : Nat} (inside : i < batch.num_d) :
    Scatter.launch (batch.loadIn digits blockIdx) order uninitialised (batch.in1 thread i) =
      digits.operand (input thread.z).source i id (batch.idx blockIdx thread) := by
  have prime := primeid_eq bound describes live row
  have determined : ∀ other ∈ order, Scatter.Determined (batch.loadIn digits blockIdx other)
      (fun address => digits.operand
        (input (address % batch.stride_in / batch.blockDimX)).source (address / batch.stride_in) id
        (address % batch.blockDimX + blockIdx.1 * batch.blockDimX)) := by
    intro other member write mem
    obtain ⟨column, half, deep⟩ := (fills other).mp member
    obtain ⟨k, visited, rfl⟩ := List.mem_map.mp mem
    obtain ⟨below, -⟩ := mem_strided.mp visited
    obtain ⟨digit, ciphertext, place⟩ := in1_decode column deep k
    dsimp only
    rw [digit, ciphertext, place, prime, Digits.operand]
    by_cases decomp : digits.primeid_digit id = some k
    · have regular := digits.regular_of_digit decomp
      simp only [decomp, if_true]
      rw [describes.chain, pos_dec_eq describes row regular]
      rfl
    · simp only [decomp, if_false]
      rw [describes.extension other.z deep k below]
      rfl
  obtain ⟨column, half, deep⟩ := (fills thread).mp runs
  obtain ⟨small, visited⟩ := mem_strided_mod two_pos inside
  have loader : (⟨thread.x, i % 2, thread.z⟩ : BlockThread) ∈ order :=
    (fills _).mpr ⟨column, small, deep⟩
  obtain ⟨digit, ciphertext, place⟩ := in1_decode column deep i
  rw [Scatter.launch_determined determined loader]
  · rw [digit, ciphertext, place]
    rfl
  · exact ⟨_, List.mem_map.mpr ⟨i, visited, rfl⟩, rfl⟩

omit bound describes live row in
/-- The key words replace nothing of the input words. -/
theorem loadKsk_keeps (j : Nat) (shared : Nat → Nat) {thread : BlockThread} (runs : thread ∈ order)
    {i : Nat} (inside : i < batch.num_d) :
    Scatter.launch (batch.loadKsk digits blockIdx j) order shared (batch.in1 thread i) =
      shared (batch.in1 thread i) := by
  apply Scatter.launch_untouched
  intro other member write mem same
  obtain ⟨column, half, deep⟩ := (fills thread).mp runs
  obtain ⟨otherColumn, otherHalf, -⟩ := (fills other).mp member
  have low := in1_lt column deep inside
  rw [loadKsk] at mem
  split at mem
  · obtain ⟨k, -, rfl⟩ := List.mem_map.mp mem
    have high := (ksk_decode otherColumn otherHalf k).1
    rw [show batch.ksk other k = batch.in1 thread i from same] at high
    omega
  · exact absurd mem List.not_mem_nil

omit fills live row in
/-- The first pointer of a key tells whether the rotation has one. -/
theorem pointer_eq {j y : Nat} (rotation : j < batch.n) (half : y < 2) :
    batch.pointer j y = (keys j).map fun ksk => (ksk.half (component y)).DIGITlimb 0 := by
  have first := digits.digit_lt_num_d (Nat.zero_le level) (by omega)
  have entry := describes.digit j rotation y half 0 (by rw [describes.count]; omega)
  rwa [Nat.add_zero] at entry

/-- After the second barrier each thread finds the key words of its half. -/
theorem loadKsk_launch {j : Nat} (rotation : j < batch.n) {ksk : KeySwitchingKey}
    (has : keys j = some ksk) (shared : Nat → Nat) {thread : BlockThread} (runs : thread ∈ order)
    {i : Nat} (inside : i < batch.num_d) :
    Scatter.launch (batch.loadKsk digits blockIdx j) order shared (batch.ksk thread i) =
      digits.operand (ksk.half (component thread.y)) i id (batch.idx blockIdx thread) := by
  have prime := primeid_eq bound describes live row
  have present : ∀ y, y < 2 → (batch.pointer j y).isSome = true := by
    intro y half
    rw [pointer_eq bound describes rotation half, has]
    rfl
  have determined : ∀ other ∈ order, Scatter.Determined (batch.loadKsk digits blockIdx j other)
      (fun address =>
        let offset := address - batch.num_d * batch.stride_in
        digits.operand (ksk.half (component (offset % batch.stride_ksk / batch.blockDimX)))
          (offset / batch.stride_ksk) id (offset % batch.blockDimX + blockIdx.1 * batch.blockDimX)) := by
    intro other member write mem
    obtain ⟨column, half, deep⟩ := (fills other).mp member
    rw [loadKsk, if_pos (present _ half)] at mem
    obtain ⟨k, visited, rfl⟩ := List.mem_map.mp mem
    obtain ⟨below, -⟩ := mem_strided.mp visited
    obtain ⟨-, digit, side, place⟩ := ksk_decode column half k
    dsimp only
    rw [digit, side, place, prime, Digits.operand]
    by_cases decomp : digits.primeid_digit id = some k
    · have regular := digits.regular_of_digit decomp
      simp only [decomp, if_true]
      rw [describes.limb j rotation other.y half, has, pos_dec_eq describes row regular]
      rfl
    · simp only [decomp, if_false]
      rw [describes.digit j rotation other.y half k below, has]
      rfl
  obtain ⟨column, half, deep⟩ := (fills thread).mp runs
  obtain ⟨small, visited⟩ := mem_strided_mod (show 0 < batch.blockDimZ by omega) inside
  have loader : (⟨thread.x, thread.y, i % batch.blockDimZ⟩ : BlockThread) ∈ order :=
    (fills _).mpr ⟨column, half, small⟩
  obtain ⟨-, digit, side, place⟩ := ksk_decode column half i
  rw [Scatter.launch_determined determined loader]
  · dsimp only
    rw [digit, side, place]
    rfl
  · rw [loadKsk, if_pos (present _ half)]
    exact ⟨_, List.mem_map.mpr ⟨i, visited, rfl⟩, rfl⟩

end Phases

end Batch

/-- A rotation without a key takes its operand to the extended basis. -/
def BatchInput.identityResidue (raw : RawParams) (input : BatchInput) (component : Component)
    (id idx : Nat) : ZMod (raw.prime id) :=
  match component with
  | .c0 => input.c0.scaled raw id idx
  | .c1 => if id < raw.L then raw.P * input.source.limb id idx else 0

/-- This residue belongs into the result of a rotation with or without a key. -/
def BatchInput.residue {raw : RawParams} (digits : Digits raw) (level : Nat) (input : BatchInput)
    (key : Option KeySwitchingKey) (component : Component) (id idx : Nat) : ZMod (raw.prime id) :=
  match key with
  | some ksk => digits.rotatedResidue level input.source ksk input.c0 component id idx
  | none => input.identityResidue raw component id idx

namespace Batch

/-- Only a rotation with a key moves the words. -/
def target (raw : RawParams) (batch : Batch) (key : Option KeySwitchingKey) (j idx : Nat) : Nat :=
  match key with
  | some _ => automorph_slot raw.logN (batch.indexes j) idx
  | none => idx

section Products

variable {raw : RawParams} (generated : raw.Generated) {digits : Digits raw} {level : Nat}
  (bound : level < raw.L) {batch : Batch} {input : Nat → BatchInput}
  {keys : Nat → Option KeySwitchingKey} (describes : Describes digits level batch input keys)
  (reduced : ∀ z, z < batch.blockDimZ → digits.Reduced level (input z).source ∧
    (input z).c0.Canonical raw ∧ level ≤ (input z).c0.level)
  {order : List BlockThread} (fills : batch.Fills order) {blockIdx : Nat × Nat} {id : Nat}
  (live : raw.Live level id) (row : blockIdx.2 = raw.row id) {shared : Nat → Nat}
  (inputs : ∀ thread ∈ order, ∀ i, i < batch.num_d → shared (batch.in1 thread i) =
    digits.operand (input thread.z).source i id (batch.idx blockIdx thread))
  {thread : BlockThread} (runs : thread ∈ order) (column : batch.idx blockIdx thread < raw.N)

include generated bound describes reduced fills live row inputs runs column

/-- The word beside the products has the residue of the operand in the extended basis. -/
theorem in2_spec :
    batch.in2 digits (SetupConstants raw) blockIdx shared thread < raw.prime id ∧
      (batch.in2 digits (SetupConstants raw) blockIdx shared thread : ZMod (raw.prime id)) =
        (input thread.z).identityResidue raw (component thread.y) id (batch.idx blockIdx thread) := by
  obtain ⟨inColumn, half, deep⟩ := (fills thread).mp runs
  obtain ⟨sourceReduced, canonical, low⟩ := reduced thread.z deep
  have prime := primeid_eq bound describes live row
  have positive := (generated.modulus (live.inside bound)).pos
  have length : (SetupConstants raw).L = raw.L := rfl
  have zero : 0 < raw.prime id ∧ ((0 : Nat) : ZMod (raw.prime id)) = 0 := ⟨positive, Nat.cast_zero⟩
  have side : thread.y = 0 ∨ thread.y = 1 := by omega
  dsimp only [in2]
  rw [prime, length, ← describes.modUp thread.z deep]
  rcases side with first | second
  · rw [first]
    by_cases regular : id < raw.L
    · have counted : digits.digit id < digits.num_d (level + 1) := by
        rcases live with below | special
        · exact digits.digit_lt_num_d below regular
        · omega
      have own := digits.primeid_digit_eq regular
      have small := sourceReduced _ counted id live _ column
      have value := inputs thread runs (digits.digit id) (by rwa [describes.count])
      rw [Digits.operand, if_pos own] at small value
      rw [if_pos (Or.inr regular), if_pos (show ¬(input thread.z).c0.modUp = true ∨ 0 = 0 from
        Or.inr rfl), if_neg (show ¬0 = 1 by omega), own, Option.getD_some, value]
      dsimp only [BatchInput.identityResidue, component]
      rw [if_pos regular]
      exact ⟨scale_lt generated regular small, scale_cast generated regular small⟩
    · rw [if_neg (by omega)]
      dsimp only [BatchInput.identityResidue, component]
      rw [if_neg regular]
      exact zero
  · rw [second]
    have word : (if id < raw.L then batch.c0 thread.z (batch.pos_dec blockIdx)
          (batch.idx blockIdx thread)
        else batch.sc0 thread.z (id - raw.L) (batch.idx blockIdx thread)) =
        (input thread.z).c0.word raw id (batch.idx blockIdx thread) := by
      rw [describes.regular, describes.special, RNSPoly.word]
      by_cases regular : id < raw.L
      · rw [if_pos regular, if_pos regular, pos_dec_eq describes row regular]
      · rw [if_neg regular, if_neg regular]
    rw [if_pos rfl, word]
    dsimp only [BatchInput.identityResidue, component]
    rw [if_neg one_ne_zero]
    dsimp only
    rw [RNSPoly.scaled]
    by_cases extended : (input thread.z).c0.modUp = true
    · have small := canonical_word canonical low live column (Or.inl extended)
      rw [if_pos (Or.inl ⟨extended, rfl⟩), if_neg (by simp [extended]), if_pos extended]
      exact ⟨small, rfl⟩
    · rw [if_neg extended]
      by_cases regular : id < raw.L
      · have small := canonical_word canonical low live column (Or.inr regular)
        rw [if_pos (Or.inr regular), if_pos (Or.inl extended), if_pos regular]
        rw [RNSPoly.word, if_pos regular] at small ⊢
        exact ⟨scale_lt generated regular small, scale_cast generated regular small⟩
      · rw [if_neg (by simp [extended, regular]), if_neg regular]
        exact zero

/-- Each thread writes the word of its column, its half and its ciphertext. -/
theorem store_eq (keysReduced : ∀ j, j < batch.n → ∀ ksk, keys j = some ksk →
      ∀ component, digits.Reduced level (ksk.half component)) {j : Nat} (rotation : j < batch.n)
    {later : Nat → Nat}
    (laterInputs : ∀ i, i < batch.num_d → later (batch.in1 thread i) =
      digits.operand (input thread.z).source i id (batch.idx blockIdx thread))
    (laterKeys : ∀ ksk, keys j = some ksk → ∀ i, i < batch.num_d → later (batch.ksk thread i) =
      digits.operand (ksk.half (component thread.y)) i id (batch.idx blockIdx thread)) :
    batch.store digits (SetupConstants raw) blockIdx j later
        (batch.in2 digits (SetupConstants raw) blockIdx shared thread) thread =
      (outputCell (SetupConstants raw) (component thread.y) (thread.z * batch.n + j) id id
          (target raw batch (keys j) j (batch.idx blockIdx thread)),
        ((input thread.z).residue digits level (keys j) (component thread.y) id
          (batch.idx blockIdx thread)).val) := by
  obtain ⟨inColumn, half, deep⟩ := (fills thread).mp runs
  obtain ⟨sourceReduced, canonical, low⟩ := reduced thread.z deep
  have prime := primeid_eq bound describes live row
  obtain ⟨small, residue⟩ := in2_spec generated bound describes reduced fills live row inputs runs
    column
  have pointer := pointer_eq bound describes rotation half
  have length : (SetupConstants raw).L = raw.L := rfl
  generalize batch.in2 digits (SetupConstants raw) blockIdx shared thread = in2 at small residue ⊢
  have cell : ∀ idx, outputCell (SetupConstants raw) (if thread.y = 0 then .c1 else .c0)
      (thread.z * batch.n + j) id (batch.pos_dec blockIdx) idx =
      outputCell (SetupConstants raw) (component thread.y) (thread.z * batch.n + j) id id idx := by
    intro idx
    rw [pos_dec, describes.rows, row]
    exact outputCell_row raw _ _ _ _
  dsimp only [store]
  rw [prime, pointer, cell, cell]
  cases has : keys j with
  | none =>
      rw [has] at pointer
      exact Prod.ext rfl (word_val small residue)
  | some ksk =>
      have start_small : ∀ word ∈ (if (batch.c0_modup = true ∨ id < raw.L) ∧ thread.y = 1 then some in2
          else none), word < raw.prime id := by
        intro word mem
        split at mem
        · exact (Option.mem_some_iff.mp mem) ▸ small
        · exact absurd mem (Option.not_mem_none word)
      have sum := accumulate_dot generated bound sourceReduced
        (keysReduced j rotation ksk has (component thread.y)) live column
        (fun i inside => ⟨laterInputs i (by rwa [describes.count]),
          laterKeys ksk has i (by rwa [describes.count])⟩) start_small
      rw [← describes.count] at sum
      refine Prod.ext rfl (word_val sum.1 ?_)
      rw [sum.2, add_comm]
      dsimp only [BatchInput.residue, Digits.rotatedResidue]
      congr 1
      have side : thread.y = 0 ∨ thread.y = 1 := by omega
      rcases side with first | second
      · rw [first, if_neg (by simp), Option.getD_none]
        exact Nat.cast_zero
      · rw [second] at residue ⊢
        by_cases enters : batch.c0_modup = true ∨ id < raw.L
        · rw [if_pos ⟨enters, rfl⟩, Option.getD_some]
          exact residue
        · obtain ⟨regular, above⟩ := not_or.mp enters
          rw [← describes.modUp thread.z deep] at regular
          rw [if_neg (fun both => enters both.1), Option.getD_none, Nat.cast_zero]
          change 0 = (input thread.z).c0.scaled raw id (batch.idx blockIdx thread)
          rw [RNSPoly.scaled, if_neg regular, if_neg above]

omit runs column

omit inputs in
/-- A block writes the words of its columns for each rotation, ciphertext and component. -/
theorem block_eq (keysReduced : ∀ j, j < batch.n → ∀ ksk, keys j = some ksk →
      ∀ component, digits.Reduced level (ksk.half component))
    (columns : ∀ thread ∈ order, batch.idx blockIdx thread < raw.N) (uninitialised : Nat → Nat) :
    batch.hoistedRotateDotKSKBatched___ digits (SetupConstants raw) blockIdx order uninitialised =
      (List.range batch.n).flatMap fun j => order.map fun thread =>
        (outputCell (SetupConstants raw) (component thread.y) (thread.z * batch.n + j) id id
            (target raw batch (keys j) j (batch.idx blockIdx thread)),
          ((input thread.z).residue digits level (keys j) (component thread.y) id
            (batch.idx blockIdx thread)).val) := by
  have loaded := fun thread runs i inside => @loadIn_launch batch raw digits level bound input keys
    describes order fills blockIdx id live row uninitialised thread runs i inside
  dsimp only [hoistedRotateDotKSKBatched___]
  generalize Scatter.launch (batch.loadIn digits blockIdx) order uninitialised = shared at loaded ⊢
  -- The input words stay in the shared memory while the rotations follow each other.
  have loop : ∀ count, count ≤ batch.n →
      (∀ thread ∈ order, ∀ i, i < batch.num_d →
        ((List.range count).foldl (fun state j =>
          (Scatter.launch (batch.loadKsk digits blockIdx j) order state.1,
            state.2 ++ order.map fun thread => batch.store digits (SetupConstants raw) blockIdx j
              (Scatter.launch (batch.loadKsk digits blockIdx j) order state.1)
              (batch.in2 digits (SetupConstants raw) blockIdx shared thread) thread))
          (shared, [])).1 (batch.in1 thread i) =
          digits.operand (input thread.z).source i id (batch.idx blockIdx thread)) ∧
      ((List.range count).foldl (fun state j =>
        (Scatter.launch (batch.loadKsk digits blockIdx j) order state.1,
          state.2 ++ order.map fun thread => batch.store digits (SetupConstants raw) blockIdx j
            (Scatter.launch (batch.loadKsk digits blockIdx j) order state.1)
            (batch.in2 digits (SetupConstants raw) blockIdx shared thread) thread))
        (shared, [])).2 =
        (List.range count).flatMap fun j => order.map fun thread =>
          (outputCell (SetupConstants raw) (component thread.y) (thread.z * batch.n + j) id id
              (target raw batch (keys j) j (batch.idx blockIdx thread)),
            ((input thread.z).residue digits level (keys j) (component thread.y) id
              (batch.idx blockIdx thread)).val) := by
    intro count
    induction count with
    | zero => exact fun below => ⟨loaded, rfl⟩
    | succ count inductionHypothesis =>
        intro below
        obtain ⟨inputs, writes⟩ := inductionHypothesis (by omega)
        rw [List.range_succ, List.foldl_append, List.foldl_cons, List.foldl_nil, List.flatMap_append,
          List.flatMap_singleton]
        generalize (List.range count).foldl _ (shared, []) = state at inputs writes ⊢
        have kept : ∀ thread ∈ order, ∀ i, i < batch.num_d →
            Scatter.launch (batch.loadKsk digits blockIdx count) order state.1 (batch.in1 thread i) =
              digits.operand (input thread.z).source i id (batch.idx blockIdx thread) := by
          intro thread runs i inside
          rw [loadKsk_keeps fills count state.1 runs inside]
          exact inputs thread runs i inside
        refine ⟨kept, ?_⟩
        dsimp only
        rw [writes]
        congr 1
        apply List.map_congr_left
        intro thread runs
        exact store_eq generated bound describes reduced fills live row loaded runs
          (columns thread runs) keysReduced below (fun i inside => kept thread runs i inside)
          (fun ksk has i inside =>
            loadKsk_launch bound describes fills live row below has state.1 runs inside)
  exact (loop batch.n le_rfl).2

end Products

/-- The word of a slot comes from here. -/
def origin (raw : RawParams) (inverse : Nat → Nat) (key : Option KeySwitchingKey) (j slot : Nat) :
    Nat :=
  match key with
  | some _ => automorph_slot raw.logN (inverse j) slot
  | none => slot

section Grid

variable {raw : RawParams} (generated : raw.Generated) (narrow : raw.logN ≤ 30)
  {digits : Digits raw} {level : Nat} (bound : level < raw.L) {batch : Batch}
  {input : Nat → BatchInput} {keys : Nat → Option KeySwitchingKey} {inverse : Nat → Nat}

section Slots

variable {j slot : Nat}
  (undone : batch.indexes j % 2 = 1 ∧ inverse j % 2 = 1 ∧
    batch.indexes j * inverse j % 2 ^ (raw.logN + 1) = 1) (inside : slot < raw.N)

include narrow undone inside

theorem origin_target : origin raw inverse (keys j) j (target raw batch (keys j) j slot) = slot := by
  cases keys j with
  | none => rfl
  | some ksk => exact automorph_slot_inverse (by omega) undone.1 undone.2.2 inside

theorem target_origin : target raw batch (keys j) j (origin raw inverse (keys j) j slot) = slot := by
  cases keys j with
  | none => rfl
  | some ksk =>
      exact automorph_slot_inverse (by omega) undone.2.1
        (Nat.mul_comm (batch.indexes j) (inverse j) ▸ undone.2.2) inside

omit undone in
theorem origin_lt : origin raw inverse (keys j) j slot < raw.N := by
  cases keys j with
  | none => exact inside
  | some ksk => exact automorph_slot_lt (by omega) _ _

end Slots

/-- The blocks of a launch cover the columns and the rows. -/
structure Covered (raw : RawParams) (level : Nat) (batch : Batch) (blocks : List (Nat × Nat))
    (threads : Nat × Nat → List BlockThread) : Prop where
  divides : batch.blockDimX ∣ raw.N
  block : ∀ row column, (column, row) ∈ blocks ↔
    column < raw.N / batch.blockDimX ∧ row < raw.K + (level + 1)
  thread : ∀ blockIdx ∈ blocks, batch.Fills (threads blockIdx)

include generated narrow bound

/-- The launch leaves the word of its origin in each slot of each result. -/
theorem batch_launch (describes : Describes digits level batch input keys)
    (reduced : ∀ z, z < batch.blockDimZ → digits.Reduced level (input z).source ∧
      (input z).c0.Canonical raw ∧ level ≤ (input z).c0.level)
    (keysReduced : ∀ j, j < batch.n → ∀ ksk, keys j = some ksk →
      ∀ component, digits.Reduced level (ksk.half component))
    (undone : ∀ j, j < batch.n → batch.indexes j % 2 = 1 ∧ inverse j % 2 = 1 ∧
      batch.indexes j * inverse j % 2 ^ (raw.logN + 1) = 1)
    {blocks : List (Nat × Nat)} {threads : Nat × Nat → List BlockThread}
    (covered : Covered raw level batch blocks threads) (uninitialised : Nat × Nat → Nat → Nat)
    (memory : Cell → Nat) {z j : Nat} (ciphertext : z < batch.blockDimZ) (rotation : j < batch.n)
    (side : Component) {id slot : Nat} (live : raw.Live level id) (inside : slot < raw.N) :
    Scatter.launch (fun blockIdx => batch.hoistedRotateDotKSKBatched___ digits (SetupConstants raw)
        blockIdx (threads blockIdx) (uninitialised blockIdx)) blocks memory
        (outputCell (SetupConstants raw) side (z * batch.n + j) id id slot) =
      ((input z).residue digits level (keys j) side id (origin raw inverse (keys j) j slot)).val := by
  have ring : 0 < raw.N := Nat.two_pow_pos raw.logN
  have width : 0 < batch.blockDimX := Nat.pos_of_dvd_of_pos covered.divides ring
  have whole : raw.N / batch.blockDimX * batch.blockDimX = raw.N := Nat.div_mul_cancel covered.divides
  have columns : ∀ blockIdx ∈ blocks, ∀ thread ∈ threads blockIdx,
      batch.idx blockIdx thread < raw.N := by
    intro blockIdx block thread runs
    have position := ((covered.block blockIdx.2 blockIdx.1).mp block).1
    have place := ((covered.thread blockIdx block thread).mp runs).1
    calc batch.idx blockIdx thread < batch.blockDimX + blockIdx.1 * batch.blockDimX :=
          Nat.add_lt_add_right place _
      _ = (blockIdx.1 + 1) * batch.blockDimX := by ring
      _ ≤ raw.N / batch.blockDimX * batch.blockDimX := Nat.mul_le_mul_right _ position
      _ = raw.N := whole
  have writes := fun blockIdx block id live row => @block_eq raw generated digits level bound batch
    input keys describes reduced (threads blockIdx) (covered.thread blockIdx block) blockIdx id live
    row keysReduced (columns blockIdx block) (uninitialised blockIdx)
  have determined : ∀ blockIdx ∈ blocks, Scatter.Determined
      (batch.hoistedRotateDotKSKBatched___ digits (SetupConstants raw) blockIdx (threads blockIdx)
        (uninitialised blockIdx))
      (fun cell => ((input (cell.result / batch.n)).residue digits level
        (keys (cell.result % batch.n)) cell.component (cell.prime raw)
        (origin raw inverse (keys (cell.result % batch.n)) (cell.result % batch.n) cell.idx)).val) := by
    intro blockIdx block write mem
    have position := ((covered.block blockIdx.2 blockIdx.1).mp block).2
    obtain ⟨alive, row⟩ := rowPrime_live digits bound position
    rw [writes blockIdx block _ alive row.symm] at mem
    obtain ⟨k, range, entry⟩ := List.mem_flatMap.mp mem
    obtain ⟨thread, runs, rfl⟩ := List.mem_map.mp entry
    have below := List.mem_range.mp range
    have fields := outputCell_fields (SetupConstants raw) (component thread.y)
      (thread.z * batch.n + k) (rowPrime digits blockIdx.2 raw.K) (rowPrime digits blockIdx.2 raw.K)
      (target raw batch (keys k) k (batch.idx blockIdx thread))
    have quotient : (thread.z * batch.n + k) / batch.n = thread.z := by
      rw [Nat.mul_comm, Nat.mul_add_div (by omega), Nat.div_eq_of_lt below, Nat.add_zero]
    have remainder : (thread.z * batch.n + k) % batch.n = k := by
      rw [Nat.mul_comm, Nat.mul_add_mod, Nat.mod_eq_of_lt below]
    dsimp only
    rw [fields.1, fields.2.1, fields.2.2, outputCell_prime, quotient, remainder,
      origin_target narrow (undone k below) (columns blockIdx block thread runs)]
  have start : origin raw inverse (keys j) j slot < raw.N := origin_lt narrow inside
  have back : target raw batch (keys j) j (origin raw inverse (keys j) j slot) = slot :=
    target_origin narrow (undone j rotation) inside
  set place := origin raw inverse (keys j) j slot with place_def
  obtain ⟨y, half, same⟩ : ∃ y, y < 2 ∧ component y = side := by
    cases side with
    | c0 => exact ⟨1, by omega, rfl⟩
    | c1 => exact ⟨0, by omega, rfl⟩
  have block : (place / batch.blockDimX, raw.row id) ∈ blocks :=
    (covered.block _ _).mpr ⟨Nat.div_lt_div_of_lt_of_dvd covered.divides start, live.row_lt bound⟩
  have runs : (⟨place % batch.blockDimX, y, z⟩ : BlockThread) ∈
      threads (place / batch.blockDimX, raw.row id) :=
    (covered.thread _ block _).mpr ⟨Nat.mod_lt _ width, half, ciphertext⟩
  have position : batch.idx (place / batch.blockDimX, raw.row id)
      ⟨place % batch.blockDimX, y, z⟩ = place := by
    change place % batch.blockDimX + place / batch.blockDimX * batch.blockDimX = place
    rw [Nat.mul_comm]
    exact Nat.mod_add_div _ _
  have fields := outputCell_fields (SetupConstants raw) side (z * batch.n + j) id id slot
  have quotient : (z * batch.n + j) / batch.n = z := by
    rw [Nat.mul_comm, Nat.mul_add_div (by omega), Nat.div_eq_of_lt rotation, Nat.add_zero]
  have remainder : (z * batch.n + j) % batch.n = j := by
    rw [Nat.mul_comm, Nat.mul_add_mod, Nat.mod_eq_of_lt rotation]
  rw [Scatter.launch_determined determined block]
  · rw [fields.1, fields.2.1, fields.2.2, outputCell_prime, quotient, remainder, ← place_def]
  · rw [writes _ block id live rfl]
    refine ⟨_, List.mem_flatMap.mpr ⟨j, List.mem_range.mpr rotation,
      List.mem_map.mpr ⟨_, runs, rfl⟩⟩, ?_⟩
    dsimp only
    rw [position, back, same]

end Grid

end Batch

section Host

variable {raw : RawParams} {digits : Digits raw} {n num_d stride : Nat}
  {keys : Nat → Option KeySwitchingKey} {input : Nat → BatchInput}

/-- An entry of the table of keys is found by its half and its digit. -/
def keyEntry (num_d : Nat) (keys : Nat → Option KeySwitchingKey) (entry : Nat) :
    Option (Nat → Limb) :=
  let half := entry / (num_d + 1)
  let k := entry % (num_d + 1)
  if k < num_d then
    (keys (half / 2)).map fun ksk => (ksk.half (Batch.component (half % 2))).DIGITlimb k
  else (keys (half / 2)).map fun ksk => (ksk.half (Batch.component (half % 2))).limb

theorem keyEntry_eq {j y k : Nat} (half : y < 2) (inside : k < num_d + 1) :
    keyEntry num_d keys ((2 * j + y) * (num_d + 1) + k) =
      if k < num_d then (keys j).map fun ksk => (ksk.half (Batch.component y)).DIGITlimb k
      else (keys j).map fun ksk => (ksk.half (Batch.component y)).limb := by
  have quotient : ((2 * j + y) * (num_d + 1) + k) / (num_d + 1) = 2 * j + y := by
    rw [Nat.mul_comm, Nat.mul_add_div (by omega), Nat.div_eq_of_lt inside, Nat.add_zero]
  have remainder : ((2 * j + y) * (num_d + 1) + k) % (num_d + 1) = k := by
    rw [Nat.mul_comm, Nat.mul_add_mod, Nat.mod_eq_of_lt inside]
  have key : (2 * j + y) / 2 = j := by omega
  have side : (2 * j + y) % 2 = y := by omega
  simp only [keyEntry, quotient, remainder, key, side]

theorem batchPointers_determined :
    Scatter.Determined (batchPointers n num_d keys) (keyEntry num_d keys) := by
  intro write mem
  obtain ⟨j, -, entry⟩ := List.mem_flatMap.mp mem
  have first : ∀ k, (num_d + 1) * 2 * j + k = (2 * j + 0) * (num_d + 1) + k := by
    intro k
    ring
  have second : ∀ k, (num_d + 1) * (2 * j + 1) + k = (2 * j + 1) * (num_d + 1) + k := by
    intro k
    ring
  rcases List.mem_append.mp entry with digit | limb
  · obtain ⟨k, range, entry⟩ := List.mem_flatMap.mp digit
    have inside := List.mem_range.mp range
    simp only [List.mem_cons, List.not_mem_nil, or_false] at entry
    rcases entry with rfl | rfl
    · rw [first, keyEntry_eq (by omega) (by omega), if_pos inside]
      rfl
    · rw [second, keyEntry_eq (by omega) (by omega), if_pos inside]
      rfl
  · simp only [List.mem_cons, List.not_mem_nil, or_false] at limb
    rcases limb with rfl | rfl
    · rw [first, keyEntry_eq (by omega) (by omega), if_neg (lt_irrefl num_d)]
      rfl
    · rw [second, keyEntry_eq (by omega) (by omega), if_neg (lt_irrefl num_d)]
      rfl

theorem digitPointers_determined (num_d : Nat) :
    Scatter.Determined (digitPointers stride num_d input)
      (fun entry => (input (entry / num_d)).source.DIGITlimb (entry % num_d)) := by
  intro write mem
  obtain ⟨z, -, entry⟩ := List.mem_flatMap.mp mem
  obtain ⟨k, range, rfl⟩ := List.mem_map.mp entry
  have inside := List.mem_range.mp range
  have positive : 0 < num_d := by omega
  dsimp only
  rw [Nat.mul_add_div positive, Nat.mul_add_mod, Nat.div_eq_of_lt inside, Nat.mod_eq_of_lt inside,
    Nat.add_zero]

theorem batchPointers_read (stale : Nat → Option (Nat → Limb)) {j : Nat} (rotation : j < n) {y : Nat}
    (half : y < 2) :
    (∀ i, i < num_d → Scatter.commit (batchPointers n num_d keys) stale
        ((2 * j + y) * (num_d + 1) + i) =
      (keys j).map fun ksk => (ksk.half (Batch.component y)).DIGITlimb i) ∧
    Scatter.commit (batchPointers n num_d keys) stale ((2 * j + y) * (num_d + 1) + num_d) =
      (keys j).map fun ksk => (ksk.half (Batch.component y)).limb := by
  have written : ∀ k, k ≤ num_d → ∃ write ∈ batchPointers n num_d keys,
      write.1 = (2 * j + y) * (num_d + 1) + k := by
    intro k below
    have inRange := List.mem_range.mpr rotation
    rcases Nat.lt_or_eq_of_le below with digit | limb
    · have entries : ∀ write, write ∈
          [((num_d + 1) * 2 * j + k, (keys j).map fun ksk => ksk.a.DIGITlimb k),
            ((num_d + 1) * (2 * j + 1) + k, (keys j).map fun ksk => ksk.b.DIGITlimb k)] →
          write ∈ batchPointers n num_d keys := fun write mem =>
        List.mem_flatMap.mpr ⟨j, inRange, List.mem_append_left _ (List.mem_flatMap.mpr
          ⟨k, List.mem_range.mpr digit, mem⟩)⟩
      interval_cases y
      · exact ⟨_, entries _ List.mem_cons_self, by ring⟩
      · exact ⟨_, entries _ (List.mem_cons_of_mem _ List.mem_cons_self), by ring⟩
    · have entries : ∀ write, write ∈
          [((num_d + 1) * 2 * j + num_d, (keys j).map fun ksk => ksk.a.limb),
            ((num_d + 1) * (2 * j + 1) + num_d, (keys j).map fun ksk => ksk.b.limb)] →
          write ∈ batchPointers n num_d keys := fun write mem =>
        List.mem_flatMap.mpr ⟨j, inRange, List.mem_append_right _ mem⟩
      rw [limb]
      interval_cases y
      · exact ⟨_, entries _ List.mem_cons_self, by ring⟩
      · exact ⟨_, entries _ (List.mem_cons_of_mem _ List.mem_cons_self), by ring⟩
  constructor
  · intro i inside
    rw [Scatter.commit_determined batchPointers_determined (written i inside.le),
      keyEntry_eq half (by omega), if_pos inside]
  · rw [Scatter.commit_determined batchPointers_determined (written num_d le_rfl),
      keyEntry_eq half (by omega), if_neg (lt_irrefl num_d)]

theorem digitPointers_read (staleDigits : Nat → Nat → Limb) {z i : Nat} (ciphertext : z < stride)
    (inside : i < num_d) :
    Scatter.commit (digitPointers stride num_d input) staleDigits (num_d * z + i) =
      (input z).source.DIGITlimb i :=
  Scatter.commit_written (digitPointers_determined num_d) (List.mem_flatMap.mpr
    ⟨z, List.mem_range.mpr ciphertext, List.mem_map.mpr ⟨i, List.mem_range.mpr inside, rfl⟩⟩)
    staleDigits

end Host

end Fideslib.KeySwitch
