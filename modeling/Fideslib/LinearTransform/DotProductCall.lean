/-
This file proves when the calls of a batch return and what they write.
-/

import Fideslib.LinearTransform.DotProductBlocks

namespace Fideslib.LinearTransform.Batch

variable {batch : Batch} {transforms : Nat}

def blockCount (batch : Batch) : Nat := (batch.gStep + 7) / 8

theorem block_inside {block : Nat} (inside : block < batch.blockCount) :
    8 * block < batch.gStep := by
  unfold blockCount at inside
  omega

theorem block_stores (sized : batch.Sized transforms) (single : batch.stride = 1)
    {b : Nat} {block : Batch} (isBlock : batch.IsBlock (8 * b) block) (inside : b < batch.blockCount) :
    block.Stores transforms block.callWrites := by
  obtain ⟨blockSized, blockSingle⟩ := block_sized sized single isBlock (block_inside inside)
  exact callWrites_stores blockSized blockSingle

/-- A write of a block goes to a place of the block. -/
theorem block_write_lt (sized : batch.Sized transforms) (single : batch.stride = 1)
    {b : Nat} {block : Batch} (isBlock : batch.IsBlock (8 * b) block) (inside : b < batch.blockCount)
    {write : Write} (member : write ∈ block.callWrites) :
    write.position < 2 * (transforms * batch.width (8 * b)) := by
  obtain ⟨-, -, -, sameWidth⟩ := block_fields isBlock
  have target := ((block_stores sized single isBlock inside).targets write.special write.position
    write.limb write.idx).mp (List.mem_map_of_mem member)
  rw [sameWidth] at target
  exact target.2.1

/-- The place of a relabelled write tells the place of the write in its block. -/
theorem block_write_decode (sized : batch.Sized transforms) (single : batch.stride = 1)
    {b : Nat} {block : Batch} (isBlock : batch.IsBlock (8 * b) block) (inside : b < batch.blockCount)
    {write : Write} (member : write ∈ block.callWrites) :
    (batch.relabel (8 * b) write).position < 2 * (transforms * batch.gStep) ∧
      (batch.relabel (8 * b) write).position % 2 = write.position % 2 ∧
      (batch.relabel (8 * b) write).position / 2 / batch.gStep =
        write.position / 2 / batch.width (8 * b) ∧
      (batch.relabel (8 * b) write).position / 2 % batch.gStep =
        8 * b + write.position / 2 % batch.width (8 * b) :=
  relabel_decode sized single (block_write_lt sized single isBlock inside member) rfl

theorem column_lt {b : Nat} (inside : b < batch.blockCount) (place : Nat) :
    place % batch.width (8 * b) < 8 := by
  have positive := width_pos (block_inside inside)
  have bound := Nat.mod_lt place positive
  unfold width at bound ⊢
  omega

/-- No two blocks write to one place. -/
theorem blocks_once (sized : batch.Sized transforms) (single : batch.stride = 1)
    {block : Nat → Batch} (isBlock : ∀ b, batch.IsBlock (8 * b) (block b)) :
    (((List.range batch.blockCount).flatMap fun b =>
      (block b).callWrites.map (batch.relabel (8 * b))).map Write.target).Nodup := by
  rw [List.map_flatMap]
  refine PartialLists.nodup_flatMap_of_key
    (fun target : Bool × Nat × Nat × Nat => target.2.1 / 2 % batch.gStep / 8)
    List.nodup_range ?_ ?_
  · intro b member
    have inside := List.mem_range.mp member
    have once := (block_stores sized single (isBlock b) inside).once
    rw [List.map_map]
    rw [List.nodup_iff_pairwise_ne, List.pairwise_map] at once ⊢
    refine once.imp_of_mem ?_
    intro first second inFirst inSecond apart same
    refine apart ?_
    obtain ⟨-, firstHalf, firstRow, firstColumn⟩ :=
      block_write_decode sized single (isBlock b) inside inFirst
    obtain ⟨-, secondHalf, secondRow, secondColumn⟩ :=
      block_write_decode sized single (isBlock b) inside inSecond
    simp only [Function.comp, Write.target, Prod.mk.injEq] at same ⊢
    obtain ⟨special, place, limb, idx⟩ := same
    rw [place] at firstHalf firstRow firstColumn
    have row := firstRow.symm.trans secondRow
    have rest : first.position / 2 % batch.width (8 * b) =
        second.position / 2 % batch.width (8 * b) := by omega
    have halves : first.position / 2 = second.position / 2 := by
      rw [← Nat.div_add_mod' (first.position / 2) (batch.width (8 * b)), row, rest,
        Nat.div_add_mod']
    exact ⟨special, by omega, limb, idx⟩
  · intro b member target inBlock
    have inside := List.mem_range.mp member
    simp only [List.mem_map] at inBlock
    obtain ⟨_, ⟨write, inWrites, rfl⟩, rfl⟩ := inBlock
    obtain ⟨-, -, -, giant⟩ := block_write_decode sized single (isBlock b) inside inWrites
    have small := column_lt inside (write.position / 2)
    change (batch.relabel (8 * b) write).position / 2 % batch.gStep / 8 = b
    rw [giant]
    omega

/-- Every place of the batch belongs to one block, which writes it. -/
theorem blocks_reach (sized : batch.Sized transforms) (single : batch.stride = 1)
    {block : Nat → Batch} (isBlock : ∀ b, batch.IsBlock (8 * b) (block b))
    {special : Bool} {position limb idx : Nat} (allowed : special = true → batch.ext = true)
    (bound : position < 2 * (transforms * batch.gStep)) (inLimb : limb < batch.limbCount special)
    (inIdx : idx < batch.covered) :
    ∃ b < batch.blockCount, ∃ write ∈ (block b).callWrites,
      (batch.relabel (8 * b) write).target = (special, position, limb, idx) := by
  have inPlaces : position / 2 < transforms * batch.gStep := by omega
  obtain ⟨inRange, inGiant, whole⟩ := place_split inPlaces
  obtain ⟨b, bEq⟩ : ∃ b, b = position / 2 % batch.gStep / 8 := ⟨_, rfl⟩
  have inside : b < batch.blockCount := by
    unfold blockCount
    omega
  have inBlock : position / 2 % batch.gStep - 8 * b < batch.width (8 * b) := by
    unfold width
    omega
  obtain ⟨sameLayout, sameExt, -, sameWidth⟩ := block_fields (isBlock b)
  have place := place_lt inRange inBlock
  have member := ((block_stores sized single (isBlock b) inside).targets special
    (2 * (position / 2 / batch.gStep * batch.width (8 * b) +
      (position / 2 % batch.gStep - 8 * b)) + position % 2) limb idx).mpr (by
    rw [limbCount, covered, sameLayout, sameExt, sameWidth]
    exact ⟨allowed, by omega, inLimb, inIdx⟩)
  obtain ⟨write, inWrites, same⟩ := List.mem_map.mp member
  refine ⟨b, inside, write, inWrites, ?_⟩
  simp only [Write.target, Prod.mk.injEq] at same
  obtain ⟨rfl, there, rfl, rfl⟩ := same
  have found := blockOutputs_getElem sized single inRange inBlock
    (Nat.mod_lt position (by decide : 0 < 2))
  simp only [Write.target, relabel, Prod.mk.injEq, true_and, and_true]
  rw [there, List.getD_eq_getElem?_getD, found, Option.getD_some]
  omega

/-- The blocks write what one call on the whole batch would write. -/
theorem blocks_store (sized : batch.Sized transforms) (single : batch.stride = 1)
    {block : Nat → Batch} (isBlock : ∀ b, batch.IsBlock (8 * b) (block b)) :
    batch.Stores transforms ((List.range batch.blockCount).flatMap fun b =>
      (block b).callWrites.map (batch.relabel (8 * b))) := by
  refine ⟨blocks_once sized single isBlock, ?_, ?_⟩
  · intro special position limb idx
    simp only [List.mem_map, List.mem_flatMap, List.mem_range]
    constructor
    · rintro ⟨_, ⟨b, inside, write, member, rfl⟩, same⟩
      obtain ⟨sameLayout, sameExt, -, -⟩ := block_fields (isBlock b)
      have target := ((block_stores sized single (isBlock b) inside).targets write.special
        write.position write.limb write.idx).mp (List.mem_map_of_mem member)
      rw [limbCount, covered, sameLayout, sameExt] at target
      obtain ⟨bound, -, -, -⟩ := block_write_decode sized single (isBlock b) inside member
      simp only [Write.target, relabel, Prod.mk.injEq] at same
      obtain ⟨rfl, rfl, rfl, rfl⟩ := same
      exact ⟨target.1, bound, target.2.2.1, target.2.2.2⟩
    · rintro ⟨allowed, bound, inLimb, inIdx⟩
      obtain ⟨b, inside, write, inWrites, same⟩ :=
        blocks_reach sized single isBlock allowed bound inLimb inIdx
      exact ⟨_, ⟨b, inside, write, inWrites, rfl⟩, same⟩
  · intro write member
    simp only [List.mem_flatMap, List.mem_range, List.mem_map] at member
    obtain ⟨b, inside, write, inWrites, rfl⟩ := member
    obtain ⟨-, half, row, giant⟩ := block_write_decode sized single (isBlock b) inside inWrites
    obtain ⟨-, -, -, sameWidth⟩ := block_fields (isBlock b)
    have value := (block_stores sized single (isBlock b) inside).values write inWrites
    have inPlaces : write.position / 2 < transforms * batch.width (8 * b) := by
      have bound := block_write_lt sized single (isBlock b) inside inWrites
      omega
    obtain ⟨inRange, inBlock, -⟩ := place_split inPlaces
    change write.value = batch.dot write.special ((batch.relabel (8 * b) write).position % 2)
      write.limb write.idx ((batch.relabel (8 * b) write).position / 2 / batch.gStep)
      ((batch.relabel (8 * b) write).position / 2 % batch.gStep) batch.bStep
    rw [value, sameWidth, half, row, giant,
      block_dot sized single (isBlock b) _ _ _ _ inRange inBlock]

/-- Each plaintext belongs to one transform, one giant step and one baby step. -/
theorem exists_pt_place {position count giants babies : Nat}
    (inside : position < count * giants * babies) :
    ∃ i < count, ∃ j < giants, ∃ k < babies,
      position = i * babies * giants + j * babies + k := by
  obtain ⟨inPlaces, inBaby, whole⟩ := place_split inside
  obtain ⟨inRange, inGiant, rows⟩ := place_split inPlaces
  refine ⟨_, inRange, _, inGiant, _, inBaby, ?_⟩
  calc position = position / babies * babies + position % babies := whole.symm
    _ = (position / babies / giants * giants + position / babies % giants) * babies +
        position % babies := by rw [rows]
    _ = _ := by ring

theorem pt_place_lt {i j k count giants babies : Nat} (inRange : i < count) (inGiant : j < giants)
    (inBaby : k < babies) : i * babies * giants + j * babies + k < count * giants * babies := by
  have place := place_lt (place_lt inRange inGiant) inBaby
  have same : i * babies * giants + j * babies + k = (i * giants + j) * babies + k := by ring
  rw [same]
  exact place

section

variable (sized : batch.Sized transforms) (single : batch.stride = 1)
include sized single

theorem block_readWord {b i j k : Nat} {block : Batch} (isBlock : batch.IsBlock (8 * b) block)
    (inRange : i < transforms) (inBlock : j < batch.width (8 * b)) (inBaby : k < batch.bStep)
    (special : Bool) (limb idx : Nat) :
    block.readWord special (i * batch.bStep * batch.width (8 * b) + j * batch.bStep + k) limb idx =
      batch.readWord special (i * batch.bStep * batch.gStep + (8 * b + j) * batch.bStep + k) limb
        idx := by
  have same := block_pt sized single isBlock inRange inBlock inBaby
  obtain ⟨out, pt, ranOut, ranPt, rfl⟩ := isBlock.ran
  simp only [readWord, same]
  rfl

theorem readable_blocks {block : Nat → Batch} (isBlock : ∀ b, batch.IsBlock (8 * b) (block b)) :
    batch.CallReadable ↔ ∀ b < batch.blockCount, (block b).CallReadable := by
  constructor
  · intro readable b inside special allowed position present limb inLimb idx inIdx
    obtain ⟨sameLayout, sameExt, sameBaby, sameWidth⟩ := block_fields (isBlock b)
    obtain ⟨blockSized, -⟩ := block_sized sized single (isBlock b) (block_inside inside)
    rw [blockSized.pt, sameWidth, sameBaby] at present
    obtain ⟨i, inRange, j, inBlock, k, inBaby, rfl⟩ := exists_pt_place present
    rw [block_readWord sized single (isBlock b) inRange inBlock inBaby]
    rw [limbCount, sameLayout] at inLimb
    rw [covered, sameLayout] at inIdx
    refine readable special (by rwa [sameExt] at allowed) _ ?_ limb inLimb idx inIdx
    rw [sized.pt]
    exact pt_place_lt inRange (giant_lt inBlock) inBaby
  · intro readable special allowed position present limb inLimb idx inIdx
    rw [sized.pt] at present
    obtain ⟨i, inRange, j, inGiant, k, inBaby, rfl⟩ := exists_pt_place present
    have inside : j / 8 < batch.blockCount := by
      unfold blockCount
      omega
    have inBlock : j - 8 * (j / 8) < batch.width (8 * (j / 8)) := by
      unfold width
      omega
    obtain ⟨sameLayout, sameExt, sameBaby, sameWidth⟩ := block_fields (isBlock (j / 8))
    obtain ⟨blockSized, -⟩ := block_sized sized single (isBlock (j / 8)) (block_inside inside)
    have found := readable (j / 8) inside special (by rwa [sameExt])
      (i * batch.bStep * batch.width (8 * (j / 8)) + (j - 8 * (j / 8)) * batch.bStep + k) (by
        rw [blockSized.pt, sameWidth, sameBaby]
        exact pt_place_lt inRange inBlock inBaby) limb (by rwa [limbCount, sameLayout]) idx
      (by rwa [covered, sameLayout])
    rw [block_readWord sized single (isBlock (j / 8)) inRange inBlock inBaby] at found
    have giant : 8 * (j / 8) + (j - 8 * (j / 8)) = j := by omega
    rwa [giant] at found

/-- Each call starts with a plaintext, and every launch reads inside of the plaintexts. -/
structure Returns (batch : Batch) : Prop where
  heads : ∀ g < batch.gStep, 8 ∣ g → ∃ part, batch.pt[g * batch.bStep]? = some (some part)
  readable : batch.CallReadable

theorem stores_of_returns (returns : batch.Returns) (wide : batch.covered = batch.layout.N) :
    ∃ writes, batch.LTdotProductPtBatch = some writes ∧ batch.Stores transforms writes := by
  have first := returns.heads 0 sized.gStep_pos (by simp)
  rw [zero_mul] at first
  unfold LTdotProductPtBatch
  by_cases few : batch.gStep ≤ 8
  · rw [if_pos few]
    exact ⟨_, partitionCall_eq sized single first returns.readable wide,
      callWrites_stores sized single⟩
  · rw [if_neg few]
    choose block isBlock using fun b => exists_block sized single (8 * b)
    have calls := PartialLists.mapM_eq_map fun b (member : b ∈ List.range batch.blockCount) =>
      blockCall_eq sized single (isBlock b) (block_inside (List.mem_range.mp member)) first
        (returns.heads _ (block_inside (List.mem_range.mp member)) (Dvd.intro b rfl))
        ((readable_blocks sized single isBlock).mp returns.readable b (List.mem_range.mp member))
        wide
    refine ⟨_, ?_, blocks_store sized single isBlock⟩
    change ((List.range batch.blockCount).mapM fun b => batch.blockCall (8 * b)) >>= _ = _
    rw [calls, List.flatMap_def]
    rfl

theorem returns_of_some {writes : List Write} (ran : batch.LTdotProductPtBatch = some writes) :
    batch.Returns := by
  unfold LTdotProductPtBatch at ran
  by_cases few : batch.gStep ≤ 8
  · rw [if_pos few] at ran
    refine ⟨?_, readable_of_call sized single ran⟩
    intro g inside multiple
    have zero : g = 0 := by omega
    rw [zero, zero_mul]
    exact head_of_call sized ran
  · rw [if_neg few] at ran
    obtain ⟨results, calls, -⟩ := Option.bind_eq_some_iff.mp ran
    choose block isBlock using fun b => exists_block sized single (8 * b)
    have each : ∀ b < batch.blockCount,
        (∃ part, batch.pt[8 * b * batch.bStep]? = some (some part)) ∧ (block b).CallReadable := by
      intro b inside
      cases called : batch.blockCall (8 * b) with
      | none =>
          have stopped := @PartialLists.mapM_eq_none _ _ (fun b => batch.blockCall (8 * b)) _ _
            (List.mem_range.mpr inside) called
          change ((List.range batch.blockCount).mapM fun b => batch.blockCall (8 * b)) = _ at calls
          rw [stopped] at calls
          cases calls
      | some result =>
          exact of_blockCall sized single (isBlock b) (block_inside inside) called
    refine ⟨?_, (readable_blocks sized single isBlock).mpr fun b inside => (each b inside).2⟩
    intro g inside multiple
    obtain ⟨b, rfl⟩ := multiple
    refine (each b ?_).1
    unfold blockCount
    omega

end

/-- More than one ciphertext for each plaintext makes the loops leave the output vector. -/
theorem not_some_of_stride (sized : batch.Sized transforms) (several : batch.stride ≠ 1)
    {writes : List Write} : batch.LTdotProductPtBatch ≠ some writes := by
  have giantPos := sized.gStep_pos
  have transformsPos := sized.transforms_pos
  have stridePos := sized.stride_pos
  have rounds : batch.num_LT = transforms * batch.stride := by
    rw [num_LT, sized.out, Nat.mul_div_mul_left _ _ (by decide), Nat.mul_div_cancel _ giantPos]
  -- the round after the last transform starts at the end of the vector
  have tooMany : transforms < batch.num_LT := by
    rw [rounds]
    calc transforms < transforms * 2 := by omega
      _ ≤ transforms * batch.stride := Nat.mul_le_mul_left _ (by omega)
  have outside : ¬2 * (transforms * batch.stride * batch.gStep) < batch.out.length := by
    rw [sized.out]
    exact lt_irrefl _
  intro ran
  unfold LTdotProductPtBatch at ran
  by_cases few : batch.gStep ≤ 8
  · rw [if_pos few] at ran
    have entry : (false, batch.offset_out 0 + transforms * batch.stride * batch.gStep, none) ∈
        batch.allEntries := by
      refine mem_allEntries.mpr ⟨by simp, transforms, tooMany, ?_⟩
      simp only [entries, List.mem_append]
      refine .inl (.inl (.inl (.inl ?_)))
      simp only [outEntries, List.mem_flatMap, List.mem_map, List.mem_range]
      refine ⟨0, stridePos, 0, giantPos, ?_⟩
      simp only [zero_mul, add_zero, outAt, if_neg outside]
    have stopped : batch.data_ptrs = none :=
      PartialLists.foldlM_eq_none _ entry fun before => rfl
    unfold partitionCall at ran
    rw [if_pos sized.limbs, stopped] at ran
    cases ran
  · rw [if_neg few] at ran
    obtain ⟨results, calls, -⟩ := Option.bind_eq_some_iff.mp ran
    have widthPos := @width_pos batch 0 giantPos
    have member : 2 * (transforms * batch.stride * batch.gStep) ∈
        batch.blockOutputs 0 (batch.width 0) := by
      simp only [blockOutputs, List.mem_flatMap, List.mem_range]
      refine ⟨transforms, tooMany, 0, stridePos, 0, widthPos, ?_⟩
      simp only [zero_mul, add_zero]
      exact List.mem_cons_self
    have stopped : batch.blockCall (8 * 0) = none := by
      have lookup := @PartialLists.mapM_eq_none _ _ (fun position => batch.out[position]?) _ _ member
        (List.getElem?_eq_none (Nat.le_of_not_lt outside))
      unfold blockCall
      change ((batch.blockOutputs 0 (batch.width 0)).mapM fun position => batch.out[position]?) >>=
        _ = _
      rw [lookup]
      rfl
    have whole := @PartialLists.mapM_eq_none _ _ (fun block => batch.blockCall (8 * block))
      (List.range ((batch.gStep + 7) / 8)) 0 (List.mem_range.mpr (by omega)) stopped
    rw [whole] at calls
    cases calls

/-- A device with fewer coefficients than one block of threads starts no thread. -/
theorem no_writes_of_narrow (narrow : batch.layout.N / 64 = 0) {writes : List Write}
    (ran : batch.LTdotProductPtBatch = some writes) : writes = [] := by
  have launch : ∀ (other : Batch) table special, other.layout = batch.layout →
      other.dotProductLtBatchedPt2 table special = some [] := by
    intro other table special same
    have none : ∀ limbs, other.threads limbs = [] := by
      intro limbs
      rw [threads, same, narrow]
      simp
    simp only [dotProductLtBatchedPt2, none, List.mapM_nil]
    rfl
  have call : ∀ (other : Batch) (written : List Write), other.layout = batch.layout →
      other.partitionCall = some written → written = [] := by
    intro other written same ran
    unfold partitionCall at ran
    cases checked : other.checkLimbs with
    | false =>
      rw [checked, if_neg Bool.false_ne_true] at ran
      cases ran
    | true =>
      rw [checked, if_pos rfl] at ran
      obtain ⟨table, -, afterTable⟩ := Option.bind_eq_some_iff.mp ran
      obtain ⟨done, -, afterStream⟩ := Option.bind_eq_some_iff.mp afterTable
      simp only [launch other table _ same, Option.bind_eq_bind, Option.bind_some] at afterStream
      cases extended : other.ext <;> rw [extended] at afterStream <;> cases afterStream <;> rfl
  unfold LTdotProductPtBatch at ran
  by_cases few : batch.gStep ≤ 8
  · rw [if_pos few] at ran
    exact call batch writes rfl ran
  · rw [if_neg few] at ran
    obtain ⟨results, calls, same⟩ := Option.bind_eq_some_iff.mp ran
    cases same
    rw [List.flatten_eq_nil_iff]
    intro result member
    obtain ⟨b, -, called⟩ := (PartialLists.mem_mapM calls).mp member
    unfold blockCall at called
    obtain ⟨out, -, afterOut⟩ := Option.bind_eq_some_iff.mp called
    obtain ⟨pt, -, afterPt⟩ := Option.bind_eq_some_iff.mp afterOut
    obtain ⟨head, -, afterHead⟩ := Option.bind_eq_some_iff.mp afterPt
    obtain ⟨first, -, afterFirst⟩ := Option.bind_eq_some_iff.mp afterHead
    obtain ⟨written, ranBlock, label⟩ := Option.bind_eq_some_iff.mp afterFirst
    cases label
    have nothing := call { batch with out, pt, gStep := min 8 (batch.gStep - 8 * b) } written rfl
      ranBlock
    rw [nothing]
    rfl

end Fideslib.LinearTransform.Batch
